import Provision.Batch
import Provision.Proofs.Files

/-!
# The turns of the workers

A batch runs over files in a state of any type. `Turn` says all that a worker can do in one step,
and an `Event` records a step that touches the files: one that converts a template or writes one of
its files. The steps that a worker has left go down with each of its turns and never go up, so a
batch is finished once each worker has had as many turns as it can use.
-/

namespace Provision.Batch

open Files (run_bind_eq)

/-- A template when a worker converts it: its position, the flag that cancels the batch as the
worker reads it, and the files as they are by then. -/
structure Visit (σ : Type) where
  position : Nat
  template : String
  cancelled : Bool
  before : σ

/-- A file when a worker writes it, for the template at a position. -/
structure Write (σ : Type) where
  position : Nat
  path : String
  contents : String
  before : σ

inductive Event (σ : Type) where
  | visit (visit : Visit σ)
  | write (write : Write σ)

section

variable {σ : Type} (system : Files.FileSystem (StateM σ)) (job : Job)

def Visit.result (visit : Visit σ) : Except Fault Conversion × σ :=
  (job.convert system visit.template).run visit.before

def Write.result (write : Write σ) : Except Files.PublishFault Bool × σ :=
  (Files.writeAtomic system write.path write.contents).run write.before

def Write.outcome (write : Write σ) : Except Files.PublishFault (List String) :=
  (write.result system).1.map fun changed => if changed then [write.path] else []

section

variable (state : State) (files : σ)

/-- What a worker in a phase can do, given the batch and the files: what happens to the files, and
the phase, the batch and the files afterwards. -/
inductive Turn : Phase → Option (Event σ) → Phase → State → σ → Prop
  | stop (h : state.cancelled = true) : Turn .ready none .stopped state files
  | proceed (h : state.cancelled = false) : Turn .ready none .taking state files
  | take {template : String} (h : job.templates[state.next]? = some template) :
      Turn .taking none (.converting state.next template)
        { state with next := state.next + 1 } files
  | finish (h : job.templates[state.next]? = none) :
      Turn .taking none .stopped { state with next := state.next + 1 } files
  | convert {visit : Visit σ} (hflag : visit.cancelled = state.cancelled)
      (hfiles : visit.before = files) :
      Turn (.converting visit.position visit.template) (some (.visit visit))
        (.afterConversion visit.position visit.template visit.cancelled
          (visit.result system job).1) state (visit.result system job).2
  | write {write : Write σ} {template : String} {conversion : Conversion} {file : GeneratedFile}
      {rest : List GeneratedFile} {written : List String}
      (hpath : write.path = Files.join (outDirOf job.outDir template) file.path)
      (hcontents : write.contents = file.contents) (hfiles : write.before = files) :
      Turn (.publishing write.position template conversion (file :: rest) written)
        (some (.write write))
        (.afterWrite write.position template conversion rest written (write.outcome system)) state
        (write.result system).2
  | close {position : Nat} {template : String} {conversion : Conversion} {written : List String} :
      Turn (.publishing position template conversion [] written) none
        (.settling position ⟨template, .ok ⟨conversion, written⟩⟩) state files
  | settle {position : Nat} {item : Item} :
      Turn (.settling position item) none (.recording position item)
        { state with cancelled := state.cancelled || (job.failFast && !item.outcome.isOk) } files
  | record {position : Nat} {item : Item} :
      Turn (.recording position item) none .ready
        { state with results := (position, item) :: state.results } files
  | rest : Turn .stopped none .stopped state files

end

def eventOf (state : State) (files : σ) : Phase → Option (Event σ)
  | .converting position template => some (.visit ⟨position, template, state.cancelled, files⟩)
  | .publishing position template _ (file :: _) _ =>
    some (.write ⟨position, Files.join (outDirOf job.outDir template) file.path, file.contents,
      files⟩)
  | _ => none

theorem turn_advance (state : State) (files : σ) (phase : Phase) :
    Turn system job state files phase (eventOf job state files phase)
      ((job.advance system state phase).run files).1.1
      ((job.advance system state phase).run files).1.2
      ((job.advance system state phase).run files).2 := by
  cases phase with
  | ready =>
    cases hflag : state.cancelled with
    | true =>
      simp only [Job.advance, hflag]
      exact .stop hflag
    | false =>
      simp only [Job.advance, hflag]
      exact .proceed hflag
  | taking =>
    cases htemplate : job.templates[state.next]? with
    | some template =>
      simp only [Job.advance, htemplate]
      exact .take htemplate
    | none =>
      simp only [Job.advance, htemplate]
      exact .finish htemplate
  | converting position template =>
    let visit : Visit σ := ⟨position, template, state.cancelled, files⟩
    exact @Turn.convert σ system job state files visit rfl rfl
  | publishing position template conversion remaining written =>
    cases remaining with
    | nil => exact .close
    | cons file rest =>
      let write : Write σ :=
        ⟨position, Files.join (outDirOf job.outDir template) file.path, file.contents, files⟩
      exact @Turn.write σ system job state files write _ _ _ _ _ rfl rfl rfl
  | settling position item => exact .settle
  | recording position item => exact .record
  | stopped => exact .rest

def Job.events (state : State) (files : σ) : List Nat → List (Event σ)
  | [] => []
  | worker :: rest =>
    let next := (job.step system state worker).run files
    (state.workers[worker]?.bind (eventOf job state files)).toList ++
      Job.events next.1 next.2 rest

theorem events_cons (state : State) (files : σ) (worker : Nat) (rest : List Nat) :
    job.events system state files (worker :: rest) =
      (state.workers[worker]?.bind (eventOf job state files)).toList ++
        job.events system ((job.step system state worker).run files).1
          ((job.step system state worker).run files).2 rest := rfl

theorem run_steps_cons (state : State) (files : σ) (worker : Nat) (rest : List Nat) :
    (job.steps system state (worker :: rest)).run files =
      (job.steps system ((job.step system state worker).run files).1 rest).run
        ((job.step system state worker).run files).2 := rfl

section

variable {system job} {state next : State} {files files' : σ} {phase phase' : Phase}
  {event : Option (Event σ)} (h : Turn system job state files phase event phase' next files')

include h

theorem Turn.workers_eq : next.workers = state.workers := by
  cases h <;> rfl

theorem Turn.next_le : state.next ≤ next.next := by
  cases h <;> simp

end

theorem run_step_eq {state : State} {worker : Nat} {phase : Phase}
    (hphase : state.workers[worker]? = some phase) (files : σ) :
    (job.step system state worker).run files =
      ({ ((job.advance system state phase).run files).1.2 with
          workers := ((job.advance system state phase).run files).1.2.workers.set worker
            ((job.advance system state phase).run files).1.1 },
        ((job.advance system state phase).run files).2) := by
  simp only [Job.step, hphase]
  rfl

/-- All that a step can do: nothing where there is no such worker, and otherwise a turn of the
worker while the others stay as they are. -/
theorem step_cases (state : State) (files : σ) (worker : Nat) :
    (state.workers[worker]? = none ∧ (job.step system state worker).run files = (state, files)) ∨
      ∃ first phase last phase' next files', state.workers = first ++ phase :: last ∧
        first.length = worker ∧ state.workers[worker]? = some phase ∧
        Turn system job state files phase (eventOf job state files phase) phase' next files' ∧
        (job.step system state worker).run files =
          ({ next with workers := first ++ phase' :: last }, files') := by
  cases hphase : state.workers[worker]? with
  | none =>
    refine .inl ⟨rfl, ?_⟩
    simp only [Job.step, hphase]
    rfl
  | some phase =>
    obtain ⟨hlt, hget⟩ := List.getElem?_eq_some_iff.mp hphase
    have hturn := turn_advance system job state files phase
    refine .inr ⟨state.workers.take worker, phase, state.workers.drop (worker + 1), _, _, _, ?_,
      List.length_take_of_le (Nat.le_of_lt hlt), rfl, hturn, ?_⟩
    · rw [← hget, ← List.drop_eq_getElem_cons hlt, List.take_append_drop]
    · rw [run_step_eq system job hphase, hturn.workers_eq, List.set_eq_take_append_cons_drop,
        if_pos hlt]

def Phase.afterPublish (position : Nat) (template : String) (conversion : Conversion)
    (written : List String) : Except Files.PublishFault (List String) → Phase
  | .error fault => .settling position ⟨template, .error (.publish fault)⟩
  | .ok paths => .settling position ⟨template, .ok ⟨conversion, written ++ paths⟩⟩

/-- A worker that is not interrupted publishes the files that remain as `Files.publish` does. -/
theorem run_steps_publishing {state : State} {files : σ} {worker position : Nat} {template : String}
    {conversion : Conversion} {remaining : List GeneratedFile} {written : List String}
    (hphase : state.workers[worker]? =
      some (.publishing position template conversion remaining written)) :
    ∃ count ≤ remaining.length + 1,
      (job.steps system state (List.replicate count worker)).run files =
        ({ state with
            workers := state.workers.set worker
              (.afterPublish position template conversion written
                ((Files.publish system (outDirOf job.outDir template) remaining).run files).1) },
          ((Files.publish system (outDirOf job.outDir template) remaining).run files).2) := by
  have hlt := (List.getElem?_eq_some_iff.mp hphase).1
  induction remaining generalizing state files written with
  | nil =>
    refine ⟨1, Nat.le_refl 1, ?_⟩
    rw [List.replicate_one, run_steps_cons, run_step_eq system job hphase]
    have hpaths : (.afterPublish position template conversion written (.ok []) : Phase) =
        .settling position ⟨template, .ok ⟨conversion, written⟩⟩ := by
      rw [Phase.afterPublish, List.append_nil]
    exact congrArg (fun phase => ({ state with workers := state.workers.set worker phase }, files))
      hpaths.symm
  | cons file rest ih =>
    have hfirst := run_step_eq system job hphase files
    simp only [Job.advance, run_bind_eq] at hfirst
    simp only [Files.publish, run_bind_eq]
    generalize (Files.writeAtomic system (Files.join (outDirOf job.outDir template) file.path)
      file.contents).run files = result at hfirst ⊢
    obtain ⟨fault | changed, between⟩ := result
    · refine ⟨1, Nat.le_add_left _ _, ?_⟩
      rw [List.replicate_one, run_steps_cons, hfirst]
      rfl
    · let paths := if changed then [Files.join (outDirOf job.outDir template) file.path] else []
      let workers := state.workers.set worker
        (.publishing position template conversion rest (written ++ paths))
      obtain ⟨count, hcount, hrest⟩ := @ih { state with workers } between _
        (List.getElem?_set_self hlt) (by simpa [workers] using hlt)
      refine ⟨count + 1, Nat.succ_le_succ hcount, ?_⟩
      rw [List.replicate_succ, run_steps_cons, hfirst]
      refine hrest.trans ?_
      simp only [run_bind_eq, workers, List.set_set]
      generalize (Files.publish system (outDirOf job.outDir template) rest).run between = published
      obtain ⟨fault | others, last⟩ := published
      · rfl
      · cases changed <;> simp only [Phase.afterPublish, List.append_assoc] <;> rfl

/-! ## Steps left -/

/-- The most steps that a worker in a phase takes before it stops, while so many templates are yet
to be handed out. -/
def Phase.stepsLeft (job : Job) (templates : Nat) : Phase → Nat
  | .ready => job.stepsPerTemplate * templates + 2
  | .taking => job.stepsPerTemplate * templates + 1
  | .converting .. => job.stepsPerTemplate * templates + job.stepsPerTemplate
  | .publishing _ _ _ remaining _ => job.stepsPerTemplate * templates + (remaining.length + 5)
  | .settling .. => job.stepsPerTemplate * templates + 4
  | .recording .. => job.stepsPerTemplate * templates + 3
  | .stopped => 0

def Job.stepsLeft (state : State) (worker : Nat) : Nat :=
  (state.workers[worker]?.map (Phase.stepsLeft job (job.templates.length - state.next))).getD 0

def State.Finished (state : State) : Prop := ∀ phase ∈ state.workers, phase = .stopped

theorem Phase.stepsLeft_mono {fewer more : Nat} (h : fewer ≤ more) (phase : Phase) :
    phase.stepsLeft job fewer ≤ phase.stepsLeft job more := by
  have hmul := Nat.mul_le_mul_left job.stepsPerTemplate h
  cases phase <;> simp only [stepsLeft] <;> omega

theorem Phase.eq_stopped_of_stepsLeft {templates : Nat} {phase : Phase}
    (h : phase.stepsLeft job templates = 0) : phase = .stopped := by
  cases phase <;> simp_all [stepsLeft, Job.stepsPerTemplate]

theorem files_of_ofTemplate {text : String} {registry : Schema.Registry} {targets : List Target}
    {conversion : Conversion} (h : Conversion.ofTemplate text registry targets = .ok conversion) :
    ∃ source : Target → String, conversion.files = targets.map fun target =>
      ⟨target.name ++ "/" ++ target.entryFile, source target⟩ := by
  rw [Conversion.ofTemplate] at h
  cases hloaded : Template.parse text with
  | error fault =>
    rw [hloaded] at h
    cases h
  | ok loaded =>
    rw [hloaded] at h
    obtain rfl := Except.ok.inj h
    refine ⟨fun target => (Assembly.assemble
      (Lowering.lower (Binding.bind loaded.value registry).1) target).source, ?_⟩
    rw [Conversion.files, Conversion.ofProgram, List.map_map]
    rfl

def Job.converted (job : Job) (template : String) : Option String → Except Fault Conversion
  | none => .error (.unreadable template)
  | some text => (Conversion.ofTemplate text job.registry job.targets).mapError .template

theorem run_convert (template : String) (files : σ) :
    (job.convert system template).run files =
      (job.converted template ((system.read template).run files).1,
        ((system.read template).run files).2) := by
  simp only [Job.convert, run_bind_eq]
  generalize (system.read template).run files = found
  obtain ⟨_ | text, after⟩ := found <;> rfl

variable {job} in
private theorem length_files {template : String} {found : Option String} {conversion : Conversion}
    (h : job.converted template found = .ok conversion) :
    conversion.files.length = job.targets.length := by
  cases found with
  | none => cases h
  | some text =>
    cases hconverted : Conversion.ofTemplate text job.registry job.targets with
      rw [Job.converted, hconverted] at h
    | error fault => cases h
    | ok other =>
      obtain rfl : other = conversion := Except.ok.inj h
      obtain ⟨source, hfiles⟩ := files_of_ofTemplate hconverted
      rw [hfiles, List.length_map]

theorem Turn.stepsLeft_lt {system : Files.FileSystem (StateM σ)} {job : Job} {state next : State}
    {files files' : σ} {phase phase' : Phase} {event : Option (Event σ)}
    (h : Turn system job state files phase event phase' next files') :
    phase'.stepsLeft job (job.templates.length - next.next) ≤
      phase.stepsLeft job (job.templates.length - state.next) - 1 := by
  cases h with
  | take htemplate =>
    have hlt := (List.getElem?_eq_some_iff.mp htemplate).1
    obtain ⟨fewer, hfewer⟩ : ∃ fewer, job.templates.length - state.next = fewer + 1 :=
      ⟨_, (Nat.succ_pred_eq_of_pos (Nat.sub_pos_of_lt hlt)).symm⟩
    have hnext : job.templates.length - (state.next + 1) = fewer := by omega
    simp only [Phase.stepsLeft, hnext, hfewer, Nat.mul_succ]
    omega
  | @convert visit =>
    unfold Phase.afterConversion
    split
    · simp only [Phase.stepsLeft, Job.stepsPerTemplate]
      omega
    · next conversion hconverted =>
      rw [Visit.result, run_convert] at hconverted
      have hlength := length_files hconverted
      split <;> simp only [Phase.stepsLeft, Job.stepsPerTemplate] <;> omega
  | write =>
    unfold Phase.afterWrite
    split <;> simp only [Phase.stepsLeft, List.length_cons] <;> omega
  | stop | proceed | finish | close | settle | record | rest => simp [Phase.stepsLeft]

private theorem stepsLeft_step (state : State) (files : σ) (worker other : Nat) :
    job.stepsLeft ((job.step system state worker).run files).1 other ≤
      job.stepsLeft state other - if worker = other then 1 else 0 := by
  rcases step_cases system job state files worker with
    ⟨hnone, hrun⟩ | ⟨first, phase, last, phase', next, files', hworkers, rfl, -, hturn, hrun⟩
  · rw [hrun]
    split
    · next heq => simp [Job.stepsLeft, ← heq, hnone]
    · exact Nat.le_refl _
  · rw [hrun]
    simp only [Job.stepsLeft, hworkers]
    have hfewer : job.templates.length - next.next ≤ job.templates.length - state.next :=
      Nat.sub_le_sub_left hturn.next_le _
    split
    · next heq =>
      subst heq
      simpa using hturn.stepsLeft_lt
    · next hne =>
      have hsame : (first ++ phase' :: last)[other]? = (first ++ phase :: last)[other]? := by
        rw [List.getElem?_append, List.getElem?_append]
        split
        · rfl
        · have hpos : other - first.length = (other - first.length - 1) + 1 := by omega
          rw [hpos, List.getElem?_cons_succ, List.getElem?_cons_succ]
      rw [hsame]
      cases (first ++ phase :: last)[other]? with
      | none => exact Nat.le_refl _
      | some phase => exact Phase.stepsLeft_mono job hfewer phase

private theorem stepsLeft_steps (state : State) (files : σ) (schedule : List Nat) (worker : Nat) :
    job.stepsLeft ((job.steps system state schedule).run files).1 worker ≤
      job.stepsLeft state worker - schedule.count worker := by
  induction schedule generalizing state files with
  | nil => exact Nat.le_refl _
  | cons first rest ih =>
    rw [run_steps_cons, List.count_cons]
    have hrest := ih ((job.step system state first).run files).1
      ((job.step system state first).run files).2
    have hfirst := stepsLeft_step system job state files first worker
    simp only [beq_iff_eq]
    omega

def Job.Fair (schedule : List Nat) : Prop :=
  ∀ worker < job.workerCount, job.stepsPerWorker ≤ schedule.count worker

theorem fair_inTurn : job.Fair job.inTurn := by
  intro worker hworker
  have hmem : worker ∈ List.range job.workerCount := List.mem_range.mpr hworker
  obtain ⟨before, after, hsplit⟩ := List.append_of_mem hmem
  rw [Job.inTurn, hsplit, List.flatMap_append, List.flatMap_cons]
  simp only [List.count_append, List.count_replicate_self]
  omega

private theorem length_workers_steps (state : State) (files : σ) (schedule : List Nat) :
    ((job.steps system state schedule).run files).1.workers.length = state.workers.length := by
  induction schedule generalizing state files with
  | nil => rfl
  | cons worker rest ih =>
    rw [run_steps_cons, ih]
    rcases step_cases system job state files worker with
      ⟨-, hrun⟩ | ⟨first, phase, last, phase', next, files', hworkers, -, -, -, hrun⟩
    · rw [hrun]
    · simp [hrun, hworkers]

theorem finished_of_fair {schedule : List Nat} (h : job.Fair schedule) (cancelled : Bool)
    (files : σ) : ((job.steps system (job.start cancelled) schedule).run files).1.Finished := by
  intro phase hphase
  obtain ⟨worker, hworker⟩ := List.mem_iff_getElem?.mp hphase
  have hlt := (List.getElem?_eq_some_iff.mp hworker).1
  rw [length_workers_steps] at hlt
  have hlt' : worker < job.workerCount := by simpa [Job.start] using hlt
  have hstart : job.stepsLeft (job.start cancelled) worker = job.stepsPerWorker := by
    simp [Job.stepsLeft, Job.start, hlt', Phase.stepsLeft, Job.stepsPerWorker]
  have hleft := stepsLeft_steps system job (job.start cancelled) files schedule worker
  rw [hstart, Nat.sub_eq_zero_of_le (h worker hlt'), Job.stepsLeft, hworker] at hleft
  exact Phase.eq_stopped_of_stepsLeft job (Nat.le_zero.mp hleft)

end

end Provision.Batch
