import Provision.Bound.Node
import Provision.Render.Layout
import Provision.Render.Need
import Provision.Target

/-!
# Dialects

A dialect is what sets one target language apart: how it names, quotes and lays out things once
their parts are texts. It never looks into an expression to render it; that is the work of the
rendering itself, which is the same for every target.
-/

namespace Provision.Render

inductive Piece where
  | text (value : String)
  | code (value : String)
  deriving DecidableEq, Repr

structure InvokeParts where
  token : TypeToken
  args : List (String × String)
  field : Option String
  readsResource : Bool

structure ApplyParts where
  sources : List (String × Ty)
  idents : List String
  body : String
  bodyTy : Ty

def ApplyParts.single? (parts : ApplyParts) : Option ((String × Ty) × String) :=
  match parts.sources, parts.idents with
  | [source], [ident] => some (source, ident)
  | _, _ => none

structure ConfigParts where
  ident : String
  name : String
  type : ConfigType
  default : Option String
  secret : Bool

structure ResourceParts where
  ident : String
  referenced : Bool
  name : String
  token : TypeToken
  properties : List (String × String)
  options : Bound.Options String
  isFirst : Bool

structure ProgramParts where
  needs : List Need
  statements : List String
  outputs : List String

structure Dialect where
  target : Target
  indentUnit : String
  baseLevel : Nat
  outputLevel : Nat
  /-- Words that no identifier may be, names of the preamble included. -/
  reserved : List String
  identifier : String → String
  propertyName : String → String
  namespaceRoot : TypeToken → String
  string : String → String
  boolean : Bool → String
  null : String
  template : Layout → List Piece → String
  templateNeeds : List Need
  struct : Layout → TypeToken → List (String × String) → String
  /-- A map with values of a type; the flag tells that it stands where an input is expected. -/
  map : Layout → Bool → List (String × String) → Ty → String
  list : Layout → Bool → List String → Ty → String
  programInput : Bound.ProgramInput → String
  inputNeeds : Bound.ProgramInput → List Need
  access : Bound.Path → String → String
  call : Builtin → List String → Ty → String
  callNeeds : Builtin → List Need
  invoke : Layout → InvokeParts → String
  conditional : String → String → String → Option String
  binary : BinaryOp → String → String → String
  unary : UnaryOp → String → String
  /-- Adapts an eventual value that an apply resolves. -/
  applySource : Bound.Expr → String → String
  /-- How the body of an apply refers to a parameter; the flag tells that it is the only one. -/
  applyBinding : Bool → String → String
  /-- Whether the body stands on a line of its own: by the same flag and the number of values. -/
  applyIndents : Bool → Nat → Bool
  apply : Layout → ApplyParts → String
  inlineStructs : Bool
  inputValue : Bound.Expr → String → String
  comment : String → String
  configStatement : Layout → ConfigParts → String
  configNeeds : ConfigType → List Need
  resourceStatement : Layout → ResourceParts → String
  variableStatement : String → String → Bool → String
  outputStatement : String → String → String → String
  program : ProgramParts → String

def avoiding (taken : List String) (ident : String) : String :=
  if taken.contains ident then ident ++ "_" else ident

def labelled (separator : String) (members : List (String × String)) : List String :=
  members.map fun (name, value) => name ++ separator ++ value

def argument (missing : String) (args : List String) (position : Nat) : String :=
  args.getD position missing

/-- The options that are set, in order, each in the way the language writes it. -/
structure OptionWriter where
  parent : String → String
  dependsOn : List String → String
  protect : String → String
  provider : String → String
  ignoreChanges : List String → String
  aliases : List String → String
  deleteBeforeReplace : String → String
  additionalSecretOutputs : List String → String
  customTimeouts : List (String × String) → String
  importId : String → String
  version : String → String

namespace OptionWriter

def list {α : Type} (write : List α → String) (items : List α) : List String :=
  if items.isEmpty then [] else [write items]

def items (writer : OptionWriter) (options : Bound.Options String) : List String :=
  (options.parent.map writer.parent).toList
    ++ list writer.dependsOn options.dependsOn
    ++ (options.protect.map writer.protect).toList
    ++ (options.provider.map writer.provider).toList
    ++ list writer.ignoreChanges options.ignoreChanges
    ++ list writer.aliases options.aliases
    ++ (options.deleteBeforeReplace.map writer.deleteBeforeReplace).toList
    ++ list writer.additionalSecretOutputs options.additionalSecretOutputs
    ++ list writer.customTimeouts options.customTimeouts.entries
    ++ (options.importId.map writer.importId).toList
    ++ (options.version.map writer.version).toList

end OptionWriter

end Provision.Render
