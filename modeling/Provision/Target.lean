import Provision.Text.Class

/-!
# Targets

The languages a program can be generated in, and the names they go by.
-/

namespace Provision

inductive Target where
  | python
  | typeScript
  | go
  | csharp
  deriving DecidableEq, Repr, Inhabited

structure UnknownTarget where
  name : String
  deriving DecidableEq, Repr

namespace Target

def all : List Target := [.python, .typeScript, .go, .csharp]

def name : Target → String
  | .python => "python"
  | .typeScript => "typescript"
  | .go => "go"
  | .csharp => "csharp"

def entryFile : Target → String
  | .python => "__main__.py"
  | .typeScript => "index.ts"
  | .go => "main.go"
  | .csharp => "Program.cs"

def ofName? (name : String) : Option Target :=
  match Text.lower (Text.trim name) with
  | "python" | "py" => some .python
  | "typescript" | "ts" | "nodejs" => some .typeScript
  | "go" | "golang" => some .go
  | "csharp" | "cs" | "dotnet" | "c#" => some .csharp
  | _ => none

def parse (name : String) : Except UnknownTarget Target :=
  match ofName? name with
  | some target => .ok target
  | none => .error ⟨name⟩

/-- The targets of a comma-separated list; no list, or a blank one, means all of them. -/
def parseList (list : Option String) : Except UnknownTarget (List Target) :=
  match list.filter fun list => !(Text.trim list).isEmpty with
  | none => .ok all
  | some list =>
    ((list.toList.splitOn ',').map String.ofList).mapM fun name =>
      match ofName? name with
      | some target => .ok target
      | none => .error ⟨Text.trim name⟩

end Target

def UnknownTarget.message (fault : UnknownTarget) : String :=
  s!"unknown target `{fault.name}` (expected one of "
    ++ ", ".intercalate (Target.all.map Target.name) ++ ")"

end Provision
