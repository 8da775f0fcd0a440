import Provision.Diagnostic
import Provision.Text.Class

/-!
# Reports

What is shown for a diagnostic. When the text of the template is at hand and holds the subject as
an object key, the report points at that key.
-/

namespace Provision

structure Label where
  text : String
  offset : Nat
  length : Nat
  deriving DecidableEq, Repr

structure Report where
  message : String
  code : String
  severity : Severity
  help : Option String
  label : Option Label
  deriving DecidableEq, Repr

namespace Report

def endsKey (rest : List Char) : Bool := (Text.dropBlanks rest).head? == some ':'

/-- Where a quoted name first stands as a key, in bytes from `offset` on. After a name that is no
key the search goes on behind it, so `skip` characters are passed over. -/
def locateKey (name : List Char) (skip offset : Nat) : List Char → Option Nat
  | [] => none
  | c :: rest =>
    let next := offset + c.utf8Size
    match skip with
    | skip + 1 => locateKey name skip next rest
    | 0 =>
      if name.isPrefixOf (c :: rest) then
        if endsKey ((c :: rest).drop name.length) then some offset
        else locateKey name (name.length - 1) next rest
      else locateKey name 0 next rest

def labelIn (diagnostic : Diagnostic) (source : String) : Option Label := do
  let subject ← diagnostic.subject
  let name := '"' :: subject.toList ++ ['"']
  let offset ← locateKey name 0 0 source.toList
  return ⟨diagnostic.kind.name, offset, Text.byteLength name⟩

def ofDiagnostic (diagnostic : Diagnostic) (source : Option String) : Report where
  message :=
    match diagnostic.subject with
    | some subject => "`" ++ subject ++ "`: " ++ diagnostic.message
    | none => diagnostic.message
  code := diagnostic.kind.code
  severity := diagnostic.severity
  help := diagnostic.help
  label := source.bind (labelIn diagnostic)

def text (report : Report) : String :=
  let position :=
    match report.label with
    | some label => s!" (at byte {label.offset})"
    | none => ""
  let help :=
    match report.help with
    | some help => "\n  help: " ++ help
    | none => ""
  report.code ++ "\n  " ++ report.severity.name ++ ": " ++ report.message ++ position ++ help

end Report

end Provision
