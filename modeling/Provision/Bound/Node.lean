import Provision.Bound.Expr
import Provision.Program.Node

/-!
# Bound programs

Declarations with bound expressions. `dependencies` are the names that a declaration reads, which
is what ordering goes by.
-/

namespace Provision.Bound

structure Timeouts where
  create : Option String := none
  update : Option String := none
  delete : Option String := none
  deriving DecidableEq, Repr, Inhabited

namespace Timeouts

def entries (timeouts : Timeouts) : List (String × String) :=
  [("create", timeouts.create), ("update", timeouts.update), ("delete", timeouts.delete)].filterMap
    fun (operation, value) => value.map (operation, ·)

def isEmpty (timeouts : Timeouts) : Bool := timeouts.entries.isEmpty

def set? (timeouts : Timeouts) (operation duration : String) : Option Timeouts :=
  match operation with
  | "create" => some { timeouts with create := some duration }
  | "update" => some { timeouts with update := some duration }
  | "delete" => some { timeouts with delete := some duration }
  | _ => none

end Timeouts

structure Options (α : Type) where
  parent : Option α := none
  dependsOn : List α := []
  protect : Option α := none
  provider : Option α := none
  ignoreChanges : List String := []
  aliases : List α := []
  deleteBeforeReplace : Option α := none
  additionalSecretOutputs : List String := []
  customTimeouts : Timeouts := {}
  importId : Option α := none
  version : Option α := none
  deriving Repr, Inhabited

namespace Options

variable {α β : Type}

def isEmpty (options : Options α) : Bool :=
  options.parent.isNone && options.dependsOn.isEmpty && options.protect.isNone
    && options.provider.isNone && options.ignoreChanges.isEmpty && options.aliases.isEmpty
    && options.deleteBeforeReplace.isNone && options.additionalSecretOutputs.isEmpty
    && options.customTimeouts.isEmpty && options.importId.isNone && options.version.isNone

def values (options : Options α) : List α :=
  options.parent.toList ++ options.dependsOn ++ options.protect.toList ++ options.provider.toList
    ++ options.aliases ++ options.deleteBeforeReplace.toList ++ options.importId.toList
    ++ options.version.toList

def map (f : α → β) (options : Options α) : Options β :=
  { options with
    parent := options.parent.map f
    dependsOn := options.dependsOn.map f
    protect := options.protect.map f
    provider := options.provider.map f
    aliases := options.aliases.map f
    deleteBeforeReplace := options.deleteBeforeReplace.map f
    importId := options.importId.map f
    version := options.version.map f }

end Options

inductive Body where
  | config (type : ConfigType) (valueType : Ty) (default : Option Expr) (secret : Bool)
  | resource (token : String) (properties : List (Slot Expr)) (options : Options Expr)
  | variable (value : Expr)
  | output (value : Expr)
  deriving Repr, Inhabited

structure Node where
  name : String
  body : Body
  deriving Repr, Inhabited

structure Program where
  nodes : List Node
  deriving Repr, Inhabited

namespace Node

def isOutput (node : Node) : Bool :=
  match node.body with
  | .output _ => true
  | _ => false

def expressions (node : Node) : List Expr :=
  match node.body with
  | .config _ _ default _ => default.toList
  | .resource _ properties options => properties.map Slot.value ++ options.values
  | .variable value => [value]
  | .output value => [value]

def dependencies (node : Node) : List String :=
  (node.expressions.flatMap Expr.accessRoots).eraseDups

def map (f : Expr → Expr) (node : Node) : Node :=
  { node with
    body :=
      match node.body with
      | .config type valueType default secret => .config type valueType (default.map f) secret
      | .resource token properties options =>
        .resource token (properties.map fun slot => { slot with value := f slot.value })
          (options.map f)
      | .variable value => .variable (f value)
      | .output value => .output (f value) }

end Node

def sameOption : Option Expr → Option Expr → Bool
  | none, none => true
  | some a, some b => a.same b
  | _, _ => false

def Options.same (a b : Options Expr) : Bool :=
  sameOption a.parent b.parent && Expr.sameList a.dependsOn b.dependsOn
    && sameOption a.protect b.protect && sameOption a.provider b.provider
    && a.ignoreChanges == b.ignoreChanges && Expr.sameList a.aliases b.aliases
    && sameOption a.deleteBeforeReplace b.deleteBeforeReplace
    && a.additionalSecretOutputs == b.additionalSecretOutputs
    && a.customTimeouts == b.customTimeouts && sameOption a.importId b.importId
    && sameOption a.version b.version

def Body.same : Body → Body → Bool
  | .config type valueType default secret, .config type' valueType' default' secret' =>
    type == type' && valueType == valueType' && sameOption default default' && secret == secret'
  | .resource token properties options, .resource token' properties' options' =>
    token == token' && Expr.sameSlots properties properties' && options.same options'
  | .variable value, .variable value' => value.same value'
  | .output value, .output value' => value.same value'
  | _, _ => false

def Node.same (a b : Node) : Bool := a.name == b.name && a.body.same b.body

def Program.same (a b : Program) : Bool :=
  a.nodes.length == b.nodes.length && (a.nodes.zip b.nodes).all fun (x, y) => x.same y

end Provision.Bound
