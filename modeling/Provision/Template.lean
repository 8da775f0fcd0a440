import Provision.Builtin
import Provision.Interpolation
import Provision.Json.Value
import Provision.Program.Node
import Provision.Reported

/-!
# Templates

A template is a JSON object with the sections `configuration`, `resources`, `variables` and
`outputs`, each an object of declarations. Strings are interpolated, an object with a single key
that starts with `fn::` is a call. A part that cannot be read is reported under the name of its
declaration, and loading goes on.
-/

namespace Provision.Template

def callMarker : List Char := "fn::".toList

def invokeName : String := "fn::invoke"

def isCall (key : String) : Bool := callMarker.isPrefixOf key.toList

def problem (subject message : String) : Diagnostic :=
  (Diagnostic.error .malformed message).withSubject subject

def notice (subject message : String) : Diagnostic :=
  (Diagnostic.warning .malformed message).withSubject subject

/-- An interpolated string; one that is malformed is kept as it is written. -/
def string (subject text : String) : Reported Expr :=
  match Interpolation.parse text with
  | .ok expr => pure expr
  | .error fault => do
    Reported.report (fault.toDiagnostic.withSubject subject)
    return Expr.string text

def invokeField (subject token : String) (fields : List (String × Json)) :
    Reported (Option String) :=
  match Json.get? fields "return" with
  | none => pure none
  | some (.string field) => pure (some field)
  | some _ => do
    Reported.report (problem subject s!"the `return` of `{token}` must name one result field")
    return none

def invokeExtras (subject : String) (fields : List (String × Json)) : Reported Unit :=
  let extras := (fields.map Prod.fst).filter fun key =>
    !(["function", "arguments", "return"].contains key)
  ⟨(), extras.map fun key =>
    notice subject s!"`{invokeName}` field `{key}` is not supported and was ignored"⟩

/-- Whether the arguments of a call are the items of an array; a builtin with one parameter takes
the array itself. -/
def spreadsArguments (name : String) : Bool :=
  match Builtin.ofName? name with
  | some builtin => builtin.params.length != 1
  | none => true

mutual

def expr (subject : String) : Json → Reported Expr
  | .null => pure Expr.null
  | .bool value => pure (.literal (.bool value) none)
  | .int value => pure (.literal (.number (.ofInt value)) none)
  | .real value => pure (.literal (.number value) none)
  | .string text => string subject text
  | .array items => do
    let items ← exprs subject items
    return .array items none
  | .object [(key, value)] =>
    if key == invokeName then invoke subject value
    else if isCall key then do
      let args ← arguments subject (spreadsArguments key) value
      return .call key args none
    else do
      let value ← expr subject value
      return .object [(key, value)] none
  | .object fields => do
    let entries ← entries subject fields
    return .object entries none

def exprs (subject : String) : List Json → Reported (List Expr)
  | [] => pure []
  | item :: rest => do
    let item ← expr subject item
    let rest ← exprs subject rest
    return item :: rest

def entries (subject : String) : List (String × Json) → Reported (List (String × Expr))
  | [] => pure []
  | (key, value) :: rest => do
    let value ← expr subject value
    let rest ← entries subject rest
    return (key, value) :: rest

def arguments (subject : String) (spreads : Bool) : Json → Reported (List Expr)
  | .array items =>
    if spreads then exprs subject items
    else do
      let items ← exprs subject items
      return [.array items none]
  | value => do
    let arg ← expr subject value
    return [arg]

def invoke (subject : String) : Json → Reported Expr
  | .object fields =>
    match Json.get? fields "function" with
    | some (.string token) => do
      invokeExtras subject fields
      let args ← invokeArguments subject token fields
      let field ← invokeField subject token fields
      return .invoke token args field none
    | _ => do
      Reported.report (problem subject s!"`{invokeName}` is missing its `function`")
      return Expr.null
  | _ => do
    Reported.report
      (problem subject s!"`{invokeName}` takes an object naming the function to call")
    return Expr.null

def invokeArguments (subject token : String) :
    List (String × Json) → Reported (List (String × Expr))
  | [] => pure []
  | (key, value) :: rest =>
    if key == "arguments" then namedArguments subject token value
    else invokeArguments subject token rest

def namedArguments (subject token : String) : Json → Reported (List (String × Expr))
  | .object fields => entries subject fields
  | _ => do
    Reported.report (problem subject s!"arguments of `{token}` must be an object")
    return []

end

def inferType : Json → Option ConfigType
  | .string _ => some .string
  | .int _ => some .int
  | .real _ => some .number
  | .bool _ => some .boolean
  | .array _ => some .stringList
  | .object _ => some .object
  | .null => none

def optionalExpr (subject : String) : Option Json → Reported (Option Expr)
  | none => pure none
  | some value => do
    let value ← expr subject value
    return some value

def configType (name : String) (fields : List (String × Json)) : Except String ConfigType :=
  match Json.get? fields "type" with
  | some (.string type) =>
    match ConfigType.ofName? type with
    | some type => .ok type
    | none => .error s!"unknown configuration type `{type}`"
  | some _ => .error s!"configuration `{name}` has a non-string type"
  | none =>
    match (Json.get? fields "default").bind inferType with
    | some type => .ok type
    | none => .error s!"configuration `{name}` needs a `type` or a default value"

def config (name : String) : Json → Reported (Option Node)
  | .object fields =>
    match configType name fields with
    | .error message => do
      Reported.report (problem name message)
      return none
    | .ok type => do
      let default ← optionalExpr name (Json.get? fields "default")
      let secret :=
        match Json.get? fields "secret" with
        | some (.bool value) => value
        | _ => false
      return some (.config name type default secret)
  | _ => do
    Reported.report (problem name s!"configuration `{name}` must be an object")
    return none

def properties (name : String) (fields : List (String × Json)) :
    Reported (List (String × Expr)) :=
  match Json.get? fields "properties" with
  | none => pure []
  | some (.object properties) => entries name properties
  | some _ => do
    Reported.report (problem name s!"properties of `{name}` must be an object")
    return []

def setOptions (name : String) (options : ResourceOptions) :
    List (String × Json) → Reported ResourceOptions
  | [] => pure options
  | (key, value) :: rest =>
    if (options.set? key Expr.null).isNone then do
      Reported.report
        (notice name s!"resource option `{key}` is not supported and was ignored")
      setOptions name options rest
    else do
      let value ← expr name value
      setOptions name ((options.set? key value).getD options) rest

def options (name : String) (fields : List (String × Json)) : Reported ResourceOptions :=
  match Json.get? fields "options" with
  | none => pure {}
  | some (.object options) => setOptions name {} options
  | some _ => do
    Reported.report (problem name s!"options of `{name}` must be an object")
    return {}

def resource (name : String) : Json → Reported (Option Node)
  | .object fields =>
    match Json.get? fields "type" with
    | some (.string token) => do
      let properties ← properties name fields
      let options ← options name fields
      return some (.resource name token properties options)
    | _ => do
      Reported.report (problem name s!"resource `{name}` is missing its `type`")
      return none
  | _ => do
    Reported.report (problem name s!"resource `{name}` must be an object")
    return none

inductive Section where
  | configuration
  | resources
  | variables
  | outputs
  deriving DecidableEq, Repr

namespace Section

def all : List Section := [.configuration, .resources, .variables, .outputs]

def name : Section → String
  | .configuration => "configuration"
  | .resources => "resources"
  | .variables => "variables"
  | .outputs => "outputs"

end Section

def node (kind : Section) (name : String) (body : Json) : Reported (Option Node) :=
  match kind with
  | .configuration => config name body
  | .resources => resource name body
  | .variables => do
    let value ← expr name body
    return some (.variable name value)
  | .outputs => do
    let value ← expr name body
    return some (.output name value)

def nodes (kind : Section) : List (String × Json) → Reported (List Node)
  | [] => pure []
  | (name, body) :: rest => do
    let first ← node kind name body
    let rest ← nodes kind rest
    return first.toList ++ rest

def loadSection (root : List (String × Json)) (kind : Section) : Reported (List Node) :=
  match Json.get? root kind.name with
  | none => pure []
  | some (.object entries) => nodes kind entries
  | some _ => do
    Reported.report (.error .malformed s!"section `{kind.name}` must be an object")
    return []

def sections (root : List (String × Json)) : List Section → Reported (List Node)
  | [] => pure []
  | kind :: rest => do
    let first ← loadSection root kind
    let rest ← sections root rest
    return first ++ rest

inductive Fault where
  | notJson
  | notAnObject
  deriving DecidableEq, Repr

def Fault.message : Fault → String
  | .notJson => "template is not valid JSON"
  | .notAnObject => "template root must be a JSON object"

def load : Json → Except Fault (Reported Program)
  | .object root => .ok do
    let nodes ← sections root Section.all
    return ⟨nodes⟩
  | _ => .error .notAnObject

def parse (text : String) : Except Fault (Reported Program) :=
  match Json.parse? text with
  | some json => load json
  | none => .error .notJson

end Provision.Template
