import Provision.Files.System
import Provision.Toml

/-!
# Settings

The settings of a conversion: from a file, by default, and with what is given on the command line
on top. Paths in a file are relative to the directory that holds it.
-/

namespace Provision

structure Settings where
  targets : List Target
  schemas : List String
  outDir : String
  /-- How many templates are converted at a time; none leaves the choice to the machine. -/
  jobs : Option Nat
  deriving DecidableEq, Repr

namespace Settings

inductive Fault where
  | unreadable (path : String)
  | malformed (path : String)
  | unknownTarget (fault : UnknownTarget)
  | zeroJobs
  deriving DecidableEq, Repr

def Fault.message : Fault → String
  | .unreadable path => "failed to read " ++ path
  | .malformed path => "failed to parse " ++ path
  | .unknownTarget fault => fault.message
  | .zeroJobs => "`jobs` must be at least 1"

def fileName : String := "infragen.toml"

def defaultOutDir : String := "generated"

def default : Settings := ⟨Target.all, [], defaultOutDir, none⟩

structure Entries where
  targets : Option (List String) := none
  schemas : Option (List String) := none
  outDir : Option String := none
  jobs : Option Nat := none
  deriving DecidableEq, Repr

def text? : Toml.Value → Option String
  | .string value => some value
  | _ => none

def texts? : Toml.Value → Option (List String)
  | .array items => items.mapM text?
  | _ => none

def count? : Toml.Value → Option Nat
  | .integer value => if value < 0 then none else some value.toNat
  | _ => none

/-- Sets an entry; none for an unknown one, a value of the wrong kind or one set already. -/
def Entries.set? (entries : Entries) (key : String) (value : Toml.Value) : Option Entries :=
  match key with
  | "targets" =>
    if entries.targets.isSome then none
    else (texts? value).map fun names => { entries with targets := some names }
  | "schemas" =>
    if entries.schemas.isSome then none
    else (texts? value).map fun paths => { entries with schemas := some paths }
  | "out_dir" =>
    if entries.outDir.isSome then none
    else (text? value).map fun path => { entries with outDir := some path }
  | "jobs" =>
    if entries.jobs.isSome then none
    else (count? value).map fun jobs => { entries with jobs := some jobs }
  | _ => none

def ofPairs? (under : List String) (entries : Entries) :
    List (List String × Toml.Value) → Option Entries
  | [] => some entries
  | (path, value) :: rest => do
    match path.reverse with
    | key :: above =>
      if above.reverse = under then ofPairs? under (← entries.set? key value) rest else none
    | [] => none

def ofValue? : Toml.Value → Option Entries
  | .table pairs => ofPairs? [] {} pairs
  | .array (targets :: schemas :: outDir :: jobs :: _) => do
    return ⟨some (← texts? targets), some (← texts? schemas), some (← text? outDir),
      some (← count? jobs)⟩
  | _ => none

def pair? : Toml.Line → Option (List String × Toml.Value)
  | .pair path value => some (path, value)
  | _ => none

def tableName : String := "convert"

/-- The entries of a document. All of them stand in one table, which is written in one way only:
under a header, with dotted keys, or as a value. -/
def ofLines? : List Toml.Line → Option Entries
  | [.pair [key] value] => if key = tableName then ofValue? value else none
  | .header [key] :: rest => do
    if key = tableName then ofPairs? [] {} (← rest.mapM pair?) else none
  | lines => do ofPairs? [tableName] {} (← lines.mapM pair?)

def distinct (targets : List Target) : List Target := targets.eraseDups

def parse (path root contents : String) : Except Fault Settings := do
  match (Toml.lines? contents).bind ofLines? with
  | none => throw (.malformed path)
  | some entries =>
    let targets ←
      match entries.targets with
      | none => pure Target.all
      | some names => (names.mapM Target.parse).mapError .unknownTarget
    if entries.jobs = some 0 then throw .zeroJobs
    return {
      targets := distinct targets
      schemas := (entries.schemas.getD []).map (Files.join root)
      outDir := Files.join root (entries.outDir.getD defaultOutDir)
      jobs := entries.jobs }

structure Overrides where
  targets : Option String := none
  schemas : List String := []
  outDir : Option String := none
  jobs : Option Nat := none
  deriving DecidableEq, Repr

def override (settings : Settings) (overrides : Overrides) : Except Fault Settings := do
  let targets ←
    match overrides.targets with
    | some list => ((Target.parseList (some list)).mapError .unknownTarget).map distinct
    | none => pure settings.targets
  if overrides.jobs = some 0 then throw .zeroJobs
  return {
    targets
    schemas := if overrides.schemas.isEmpty then settings.schemas else overrides.schemas
    outDir := overrides.outDir.getD settings.outDir
    jobs := overrides.jobs <|> settings.jobs }

section

variable {m : Type → Type} [Monad m]

def load (system : Files.FileSystem m) (path : String) : m (Except Fault Settings) := do
  match ← system.read path with
  | none => return .error (.unreadable path)
  | some contents => return parse path ((Files.parent? path).getD "") contents

def discover (system : Files.FileSystem m) (directory : String) :
    m (Except Fault Settings) := do
  let path := Files.join directory fileName
  if ← system.isFile path then load system path else return .ok default

end

end Settings

end Provision
