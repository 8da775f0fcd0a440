import Provision.CommandLine.Help
import Provision.Report
import Provision.Schema.Load

/-!
# Running a command

What a command does to files, prints and reports.
-/

namespace Provision.CommandLine

inductive Notice where
  | report (report : Report)
  | failure (message : String)
  /-- What ended the command at once, and the calls under way, the innermost first. -/
  | trace (message : String) (calls : List String)
  deriving DecidableEq, Repr

def Notice.text : Notice → String
  | .report shown => shown.text ++ "\n"
  | .failure message => s!"error: {message}"
  | .trace message calls => "\n".intercalate (message :: calls)

def Notice.codes : Notice → List String
  | .report shown => [shown.code]
  | .failure _ => []
  | .trace _ calls => calls

structure Outcome where
  exitCode : Nat
  output : String := ""
  notices : List Notice := []
  deriving DecidableEq, Repr

namespace Outcome

def failure (message : String) : Outcome := { exitCode := 1, notices := [.failure message] }

/-- The end of a command that ran out of the range of a table of schemas: it takes three calls to
look into the table, and stands in those that add a package and load all of them. -/
def abort (message : String) : Outcome :=
  let calls := List.replicate 5 "infragen::schema::" ++ ["infragen::convert", "infragen::main"]
  { exitCode := 101, notices := [.trace message calls] }

def usage (fault : UsageFault) : Outcome :=
  { exitCode := 2, notices := [.failure fault.message] }

def codes (outcome : Outcome) : List String := outcome.notices.flatMap Notice.codes

end Outcome

def targetTable : String :=
  String.join (Target.all.map fun target =>
    target.name.pushn ' ' (12 - target.name.length) ++ target.entryFile ++ "\n")

section

variable {m : Type → Type} [Monad m]

def showItem (system : Files.FileSystem m) (item : Batch.Item) : m (String × List Notice) := do
  match item.outcome with
  | .error fault => return ("", [.failure fault.message])
  | .ok converted =>
    let source ← system.read item.template
    let notices := converted.conversion.allDiagnostics.map fun diagnostic =>
      .report (Report.ofDiagnostic diagnostic source)
    return (String.join (converted.written.map fun path => s!"wrote {path}\n"), notices)

def convert (system : Files.FileSystem m) (settings : Settings) (templates : List String)
    (keepGoing : Bool) : m Outcome := do
  match ← Schema.Registry.load system {} settings.schemas with
  | .error fault@(.refused (.outOfRange ..)) => return .abort fault.message
  | .error fault => return .failure fault.message
  | .ok registry =>
    let job : Batch.Job := {
      templates, registry
      targets := settings.targets
      outDir := settings.outDir
      workers := settings.jobs.getD 1
      failFast := !keepGoing }
    let (items, _) ← job.run system false
    let shown ← items.mapM (showItem system)
    return {
      exitCode := if items.any Batch.Item.hasErrors then 1 else 0
      output := String.join (shown.map Prod.fst)
      notices := shown.flatMap Prod.snd }

/-- Runs a command. Without targets among the arguments those of the environment count. -/
def execute (system : Files.FileSystem m) (environment : Option String) : Command → m Outcome
  | .version => return { exitCode := 0, output := version }
  | .help topic => return { exitCode := 0, output := topic.page.text }
  | .targets => return { exitCode := 0, output := targetTable }
  | .convert arguments => do
    let found ←
      match arguments.config with
      | some path => Settings.load system path
      | none => Settings.discover system "."
    let overrides := { arguments.overrides with
      targets := arguments.overrides.targets <|> environment }
    match found.bind (Settings.override · overrides) with
    | .error fault => return .failure fault.message
    | .ok settings => convert system settings arguments.templates arguments.keepGoing

def run (system : Files.FileSystem m) (environment : Option String) (arguments : List String) :
    m Outcome :=
  match parse arguments with
  | .error fault => return .usage fault
  | .ok command => execute system environment command

end

end Provision.CommandLine
