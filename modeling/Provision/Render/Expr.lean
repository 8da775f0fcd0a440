import Provision.Names.Table
import Provision.Render.CSharp
import Provision.Render.Go
import Provision.Render.Python
import Provision.Render.Rendering
import Provision.Render.TypeScript

/-!
# Rendered expressions

Turns a bound expression into the text of a target language. What an object becomes is decided by
the type expected of it. `Env` is everything that the text depends on; what the text needs from the
preamble is collected beside it.
-/

namespace Provision.Render

def dialectOf : Target → Dialect
  | .python => Python.dialect
  | .typeScript => TypeScript.dialect
  | .go => Go.dialect
  | .csharp => CSharp.dialect

abbrev Bindings := List (String × String)

def Bindings.insert (bindings : Bindings) (name text : String) : Bindings :=
  (name, text) :: bindings.filter (·.1 != name)

def Bindings.ofList (pairs : List (String × String)) : Bindings :=
  pairs.foldl (fun bindings (name, text) => bindings.insert name text) []

structure Env where
  target : Target
  level : Nat := 0
  input : Bool := true
  identifiers : Bindings := []
  taken : List String := []
  scopes : List Bindings := []

namespace Env

def dialect (env : Env) : Dialect := dialectOf env.target

def layout (env : Env) : Layout := ⟨env.dialect.indentUnit, env.level⟩

def deeper (env : Env) : Env := { env with level := env.level + 1 }

def withInput (env : Env) (input : Bool) : Env := { env with input }

def plain (env : Env) : Env := env.withInput false

def inScope (env : Env) (scope : Bindings) : Env := { env with scopes := scope :: env.scopes }

def reserve (env : Env) (ident : String) : Env := { env with taken := ident :: env.taken }

def declare (env : Env) (name ident : String) : Env :=
  { env.reserve ident with identifiers := env.identifiers.insert name ident }

def identifierFor (env : Env) (name : String) : String :=
  (env.identifiers.lookup name).getD (env.dialect.identifier name)

def parameter? (env : Env) (name : String) : Option String :=
  env.scopes.findSome? (·.lookup name)

/-- Identifiers for parameters: none repeats another, a word or identifier in use, or the text of
a parameter of an enclosing apply. -/
def parameterIdents (env : Env) (params : List String) : List String :=
  let used := env.dialect.reserved ++ env.taken ++ env.scopes.flatMap (·.map Prod.snd)
  ((Names.Table.withReserved used).uniqueAll (params.map env.dialect.identifier)).1

end Env

/-- What an object becomes, by the type expected of it. -/
inductive Category where
  | struct (token : String)
  | map (values : Ty)
  | unconstrained
  | union (members : List Ty)
  | other

def categorize (expected : Ty) : Category :=
  match expected.resolved with
  | .object token => .struct token
  | .map values => .map values
  | .any | .error => .unconstrained
  | .union members => .union members
  | _ => .other

def fitsStruct (ty : Ty) (token : String) : Bool :=
  match ty.resolved with
  | .object own => own == token
  | .any | .error => true
  | _ => false

def givesStruct (dialect : Dialect) (token : String) (expr : Bound.Expr) : Bool :=
  match expr with
  | .object .. | .error _ => true
  | _ => fitsStruct expr.ty token || dialect.inlineStructs

def checkStruct (env : Env) (expected : Ty) (expr : Bound.Expr) : Rendering Unit :=
  match categorize expected with
  | .struct token =>
    if givesStruct env.dialect token expr then pure ()
    else
      let message :=
        "a " ++ expr.tag ++ " of type " ++ expr.ty.text ++ " cannot be assigned to struct type `"
          ++ token ++ "` in " ++ env.target.name
      .fail ((Diagnostic.error .unsupportedExpression message).withHelp
        "write the value as an object with the struct's properties")
  | _ => pure ()

def place (env : Env) (expected : Ty) (expr : Bound.Expr) (rendered : Rendering String) :
    Rendering String := do
  checkStruct env expected expr
  let text ← rendered
  return if env.input then env.dialect.inputValue expr text else text

def literal (dialect : Dialect) : Literal → String
  | .string value => dialect.string value
  | .number value => value.text
  | .bool value => dialect.boolean value
  | .null => dialect.null

def template (env : Env) (pieces : List Piece) : Rendering String := do
  let texts := pieces.filterMap fun
    | .text value => some value
    | .code _ => none
  if texts.length = pieces.length then return env.dialect.string (String.join texts)
  Rendering.need env.dialect.templateNeeds
  return env.dialect.template env.layout pieces

def access (env : Env) (path : Bound.Path) : Rendering String :=
  match path.kind with
  | .input input => do
    Rendering.need (env.dialect.inputNeeds input)
    return env.dialect.programInput input
  | _ => return env.dialect.access path (env.identifierFor path.root)

def call (env : Env) (builtin : Builtin) (args : List String) (result : Ty) : Rendering String := do
  Rendering.need (env.dialect.callNeeds builtin)
  return env.dialect.call builtin args result

def conditional (env : Env) (condition accepted rejected : String) : Rendering String :=
  match env.dialect.conditional condition accepted rejected with
  | some text => return text
  | none =>
    .unsupported ("conditional expressions have no " ++ env.target.name ++ " equivalent")

def needsParentheses : Bound.Expr → Bool
  | .binary .. | .conditional .. => true
  | _ => false

def parenthesize (expr : Bound.Expr) (text : String) : String :=
  if needsParentheses expr then "(" ++ text ++ ")" else text

def tokenOrFail (what token : String) : Rendering TypeToken :=
  match TypeToken.parse token with
  | .ok parsed => pure parsed
  | .error fault => .unsupported ("cannot name " ++ what ++ ": " ++ fault.message)

def nameClash (rename : String → String) (seen : List (String × String)) :
    List String → Option (String × String × String)
  | [] => none
  | key :: rest =>
    match seen.lookup (rename key) with
    | some earlier => some (earlier, key, rename key)
    | none => nameClash rename ((rename key, key) :: seen) rest

def checkNames (env : Env) (owner : String) (keys : List String) : Rendering Unit :=
  match nameClash env.dialect.propertyName [] keys with
  | none => pure ()
  | some (earlier, later, name) =>
    .unsupported ("properties `" ++ earlier ++ "` and `" ++ later ++ "`" ++ owner
      ++ " both become `" ++ name ++ "` in " ++ env.target.name)

def struct (env : Env) (token : TypeToken) (fields : List (String × String)) :
    Rendering String := do
  Rendering.need [.provider token]
  return env.dialect.struct env.layout token fields

def invoke (env : Env) (parts : InvokeParts) : Rendering String := do
  Rendering.need [.provider parts.token]
  return env.dialect.invoke env.layout parts

inductive Construction where
  | struct (token : String)
  | map (values : Ty)

def construction (expected ty : Ty) : Rendering Construction :=
  match categorize expected with
  | .struct token => return .struct token
  | .map values => return .map values
  | .unconstrained | .union _ =>
    match ty.resolved with
    | .object token => return .struct token
    | .map values => return .map values
    | _ => return .map .any
  | .other =>
    .unsupported ("an object construction cannot be rendered where " ++ expected.text
      ++ " is expected")

def memberType (expected ty : Ty) : Ty :=
  match expected.resolved with
  | .list element => element
  | _ => ty.elementType

def bodyEnv (env : Env) (params idents : List String) (values : Nat) : Env :=
  let single := values == 1 && idents.length == 1
  let bindings := idents.map (env.dialect.applyBinding single)
  let env := if env.dialect.applyIndents single values then env.deeper else env
  (env.inScope (Bindings.ofList (params.zip bindings))).plain

mutual

def render (env : Env) (expected : Ty) : Bound.Expr → Rendering String
  | .literal value _ => return literal env.dialect value
  | .template parts _ => do
    let pieces ← renderParts env.plain parts
    template env pieces
  | .object entries ty => do
    match ← construction expected ty with
    | .struct token =>
      let parsed ← tokenOrFail "struct type" token
      checkNames env (" of `" ++ token ++ "`") (entries.map (·.key))
      let fields ← renderFields (env.deeper.withInput true) entries
      struct env parsed fields
    | .map values =>
      let pairs ← renderValues env.deeper values entries
      return env.dialect.map env.layout env.input pairs values
  | .array items ty => do
    let element := memberType expected ty
    let items ← renderList env.deeper element items
    return env.dialect.list env.layout env.input items element
  | .tuple items ty => do
    let element := memberType expected ty
    let items ← renderList env.deeper element items
    return env.dialect.list env.layout env.input items element
  | .access path _ => access env path
  | .call builtin args ty => do
    let args ← renderArgs (env.withInput builtin.acceptsEventual) builtin.params args
    call env builtin args ty
  | .conditional condition accepted rejected _ => do
    let condition ← place env.plain .bool condition (render env.plain .bool condition)
    let accepted ← place env.plain expected accepted (render env.plain expected accepted)
    let rejected ← place env.plain expected rejected (render env.plain expected rejected)
    conditional env condition accepted rejected
  | .binary op left right _ => do
    let leftText ← place env.plain .any left (render env.plain .any left)
    let rightText ← place env.plain .any right (render env.plain .any right)
    return env.dialect.binary op (parenthesize left leftText) (parenthesize right rightText)
  | .unary op operand _ => do
    let text ← place env.plain .any operand (render env.plain .any operand)
    return env.dialect.unary op (parenthesize operand text)
  | .index collection key _ => do
    let collection ← place env.plain .any collection (render env.plain .any collection)
    let key ← place env.plain .any key (render env.plain .any key)
    return collection ++ "[" ++ key ++ "]"
  | .invoke token args field readsResource _ => do
    let parsed ← tokenOrFail "function" token
    checkNames env (" of `" ++ token ++ "`") (args.map (·.key))
    let args ← renderFields (env.deeper.withInput true) args
    invoke env ⟨parsed, args, field, readsResource⟩
  | .apply args params body _ => do
    let sources ← renderSources env.plain args
    let idents := env.parameterIdents params
    let inner := bodyEnv env params idents args.length
    let text ← place inner .any body (render inner .any body)
    return env.dialect.apply env.layout ⟨sources, idents, text, body.ty.withoutEventual⟩
  | .placeholder name _ =>
    match env.parameter? name with
    | some text => return text
    | none => .unsupported ("`" ++ name ++ "` is used outside of its apply")
  | .error _ => return env.dialect.null

def renderParts (env : Env) : List (Part Bound.Expr) → Rendering (List Piece)
  | [] => return []
  | .text value :: rest => return .text value :: (← renderParts env rest)
  | .expr value :: rest => do
    let text ← place env .any value (render env .any value)
    return .code text :: (← renderParts env rest)

def renderFields (env : Env) : List Bound.Member → Rendering (List (String × String))
  | [] => return []
  | ⟨key, expected, value⟩ :: rest => do
    let text ← place env expected value (render env expected value)
    return (env.dialect.propertyName key, text) :: (← renderFields env rest)

def renderValues (env : Env) (values : Ty) :
    List Bound.Member → Rendering (List (String × String))
  | [] => return []
  | ⟨key, _, value⟩ :: rest => do
    let text ← place env values value (render env values value)
    return (key, text) :: (← renderValues env values rest)

def renderList (env : Env) (element : Ty) : List Bound.Expr → Rendering (List String)
  | [] => return []
  | item :: rest => do
    let text ← place env element item (render env element item)
    return text :: (← renderList env element rest)

def renderArgs (env : Env) : List Ty → List Bound.Expr → Rendering (List String)
  | param :: params, arg :: rest => do
    let text ← place env param arg (render env param arg)
    return text :: (← renderArgs env params rest)
  | _, _ => return []

def renderSources (env : Env) : List Bound.Expr → Rendering (List (String × Ty))
  | [] => return []
  | arg :: rest => do
    let text ← place env .any arg (render env .any arg)
    return (env.dialect.applySource arg text, arg.ty.withoutEventual) :: (← renderSources env rest)

end

def expression (env : Env) (expected : Ty) (expr : Bound.Expr) : Rendering String :=
  place env expected expr (render env expected expr)

end Provision.Render
