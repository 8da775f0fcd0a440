import Provision.Program.Expr

/-!
# Programs

A program is a list of declarations: settings read from configuration, resources, variables and
outputs.
-/

namespace Provision

inductive ConfigType where
  | string
  | number
  | int
  | boolean
  | stringList
  | object
  deriving DecidableEq, Repr, Inhabited

namespace ConfigType

def ofName? : String → Option ConfigType
  | "String" | "string" => some .string
  | "Number" | "number" => some .number
  | "Integer" | "integer" | "Int" | "int" => some .int
  | "Boolean" | "boolean" | "Bool" | "bool" => some .boolean
  | "List<String>" | "list(string)" => some .stringList
  | "Object" | "object" => some .object
  | _ => none

def name : ConfigType → String
  | .string => "String"
  | .number => "Number"
  | .int => "Int"
  | .boolean => "Boolean"
  | .stringList => "List<String>"
  | .object => "Object"

end ConfigType

structure ResourceOptions where
  parent : Option Expr := none
  dependsOn : Option Expr := none
  protect : Option Expr := none
  provider : Option Expr := none
  ignoreChanges : Option Expr := none
  aliases : Option Expr := none
  deleteBeforeReplace : Option Expr := none
  additionalSecretOutputs : Option Expr := none
  customTimeouts : Option Expr := none
  importId : Option Expr := none
  version : Option Expr := none
  deriving Repr, Inhabited

namespace ResourceOptions

def entries (options : ResourceOptions) : List (String × Expr) :=
  [("parent", options.parent), ("dependsOn", options.dependsOn), ("protect", options.protect),
    ("provider", options.provider), ("ignoreChanges", options.ignoreChanges),
    ("aliases", options.aliases), ("deleteBeforeReplace", options.deleteBeforeReplace),
    ("additionalSecretOutputs", options.additionalSecretOutputs),
    ("customTimeouts", options.customTimeouts), ("import", options.importId),
    ("version", options.version)].filterMap fun (name, value) => value.map (name, ·)

def isEmpty (options : ResourceOptions) : Bool := options.entries.isEmpty

def set? (options : ResourceOptions) (name : String) (value : Expr) : Option ResourceOptions :=
  match name with
  | "parent" => some { options with parent := some value }
  | "dependsOn" => some { options with dependsOn := some value }
  | "protect" => some { options with protect := some value }
  | "provider" => some { options with provider := some value }
  | "ignoreChanges" => some { options with ignoreChanges := some value }
  | "aliases" => some { options with aliases := some value }
  | "deleteBeforeReplace" => some { options with deleteBeforeReplace := some value }
  | "additionalSecretOutputs" => some { options with additionalSecretOutputs := some value }
  | "customTimeouts" => some { options with customTimeouts := some value }
  | "import" => some { options with importId := some value }
  | "version" => some { options with version := some value }
  | _ => none

end ResourceOptions

inductive Node where
  | config (name : String) (type : ConfigType) (default : Option Expr) (secret : Bool)
  | resource (name token : String) (properties : List (String × Expr)) (options : ResourceOptions)
  | variable (name : String) (value : Expr)
  | output (name : String) (value : Expr)
  deriving Repr, Inhabited

namespace Node

def name : Node → String
  | .config name _ _ _ => name
  | .resource name _ _ _ => name
  | .variable name _ => name
  | .output name _ => name

def kindName : Node → String
  | .config .. => "config"
  | .resource .. => "resource"
  | .variable .. => "variable"
  | .output .. => "output"

end Node

structure Program where
  nodes : List Node
  deriving Repr, Inhabited

end Provision
