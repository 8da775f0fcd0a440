import Provision.Files.System

/-!
# Batches

Several templates converted by workers. The workers share a flag that cancels the batch, the
position of the next template and the list of results; what a worker does is a sequence of steps,
and the steps of different workers may come in any order. A result is kept with the position of
its template, so the items of a batch are in the order of the templates whatever that order was.
-/

namespace Provision.Batch

inductive Fault where
  | unreadable (path : String)
  | template (fault : Template.Fault)
  | publish (fault : Files.PublishFault)
  | cancelled (path : String)
  deriving DecidableEq, Repr

def Fault.message : Fault → String
  | .unreadable path => "failed to read template " ++ path
  | .template fault => fault.message
  | .publish fault => fault.message
  | .cancelled path => s!"conversion of {path} was cancelled"

structure Converted where
  conversion : Conversion
  written : List String

abbrev Outcome := Except Fault Converted

structure Item where
  template : String
  outcome : Outcome

def Item.cancelled (template : String) : Item := ⟨template, .error (.cancelled template)⟩

def Item.hasErrors (item : Item) : Bool :=
  match item.outcome with
  | .ok converted => converted.conversion.hasErrors
  | .error _ => true

structure Job where
  templates : List String
  registry : Schema.Registry
  targets : List Target
  outDir : String
  /-- How many workers there are; at least one, and no more than templates. -/
  workers : Nat
  failFast : Bool

def outDirOf (outDir template : String) : String :=
  Files.join outDir (((Files.fileName? template).map Files.stem).getD "program")

inductive Phase where
  | ready
  | taking
  | converting (position : Nat) (template : String)
  /-- Write the files that remain of a conversion. The paths are those that have changed so far. -/
  | publishing (position : Nat) (template : String) (conversion : Conversion)
    (remaining : List GeneratedFile) (written : List String)
  | settling (position : Nat) (item : Item)
  | recording (position : Nat) (item : Item)
  | stopped

def Phase.afterConversion (position : Nat) (template : String) (cancelled : Bool) :
    Except Fault Conversion → Phase
  | .error fault => .settling position ⟨template, .error fault⟩
  | .ok conversion =>
    if cancelled then .settling position (.cancelled template)
    else .publishing position template conversion conversion.files []

def Phase.afterWrite (position : Nat) (template : String) (conversion : Conversion)
    (remaining : List GeneratedFile) (written : List String) :
    Except Files.PublishFault (List String) → Phase
  | .error fault => .settling position ⟨template, .error (.publish fault)⟩
  | .ok paths => .publishing position template conversion remaining (written ++ paths)

structure State where
  cancelled : Bool
  next : Nat
  /-- Items with the positions of their templates, the latest first. -/
  results : List (Nat × Item)
  workers : List Phase

namespace Job

def workerCount (job : Job) : Nat := max 1 (min job.workers (max job.templates.length 1))

def start (job : Job) (cancelled : Bool) : State :=
  ⟨cancelled, 0, [], List.replicate job.workerCount .ready⟩

section

variable {m : Type → Type} [Monad m]

def convert (system : Files.FileSystem m) (job : Job) (template : String) :
    m (Except Fault Conversion) := do
  match ← system.read template with
  | none => return .error (.unreadable template)
  | some text =>
    return (Conversion.ofTemplate text job.registry job.targets).mapError .template

def advance (system : Files.FileSystem m) (job : Job) (state : State) :
    Phase → m (Phase × State)
  | .ready => return (if state.cancelled then .stopped else .taking, state)
  | .taking =>
    let phase :=
      match job.templates[state.next]? with
      | some template => .converting state.next template
      | none => .stopped
    return (phase, { state with next := state.next + 1 })
  | .converting position template => do
    let result ← job.convert system template
    return (.afterConversion position template state.cancelled result, state)
  | .publishing position template conversion [] written =>
    return (.settling position ⟨template, .ok ⟨conversion, written⟩⟩, state)
  | .publishing position template conversion (file :: rest) written => do
    let path := Files.join (outDirOf job.outDir template) file.path
    let result ← Files.writeAtomic system path file.contents
    let paths := result.map fun changed => if changed then [path] else []
    return (.afterWrite position template conversion rest written paths, state)
  | .settling position item =>
    let failed := job.failFast && !item.outcome.isOk
    return (.recording position item, { state with cancelled := state.cancelled || failed })
  | .recording position item =>
    return (.ready, { state with results := (position, item) :: state.results })
  | .stopped => return (.stopped, state)

def step (system : Files.FileSystem m) (job : Job) (state : State) (worker : Nat) :
    m State := do
  match state.workers[worker]? with
  | none => return state
  | some phase =>
    let (phase, state) ← job.advance system state phase
    return { state with workers := state.workers.set worker phase }

def steps (system : Files.FileSystem m) (job : Job) (state : State) (schedule : List Nat) :
    m State :=
  schedule.foldlM (job.step system) state

/-- The most steps that a worker takes for a template: one for each file and six others. -/
def stepsPerTemplate (job : Job) : Nat := job.targets.length + 6

/-- The most steps that a worker takes: those for each template and two to stop. -/
def stepsPerWorker (job : Job) : Nat := job.stepsPerTemplate * job.templates.length + 2

/-- The schedule that lets every worker finish before the next one starts. -/
def inTurn (job : Job) : List Nat :=
  (List.range job.workerCount).flatMap (List.replicate job.stepsPerWorker)

/-- Goes through the templates from a position on and takes the foremost result where it is that of
the template. The results are in the order of their positions. -/
def matchUp (position : Nat) (results : List (Nat × Item)) : List String → List Item
  | [] => []
  | template :: rest =>
    match results with
    | [] => .cancelled template :: matchUp (position + 1) [] rest
    | (done, item) :: others =>
      if done == position then item :: matchUp (position + 1) others rest
      else .cancelled template :: matchUp (position + 1) results rest

def items (job : Job) (state : State) : List Item :=
  matchUp 0 (state.results.reverse.mergeSort fun left right => left.1 ≤ right.1) job.templates

def run (system : Files.FileSystem m) (job : Job) (cancelled : Bool) :
    m (List Item × Bool) := do
  let state ← job.steps system (job.start cancelled) job.inTurn
  return (job.items state, state.cancelled)

end

end Job

end Provision.Batch
