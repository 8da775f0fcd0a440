import Provision.Binding.Access
import Provision.Token
import Provision.Ty.Assign

/-!
# Binding expressions

`bindExpr` binds an expression into a slot of an expected type. Literals adapt to the slot, a bare
string may be wrapped into a struct with one scalar property, and what does not fit in the end is
reported.
-/

namespace Provision.Binding

/-- A literal in a slot: integral numbers become integers, numbers and booleans become strings
where those are expected. -/
def bindLiteral (literal : Literal) (expected : Ty) : Bound.Expr :=
  match literal, expected.resolved with
  | .number value, .int => .literal literal (if value.isIntegral then .int else .number)
  | .number value, .string => .string value.text
  | .bool value, .string => .string (if value then "true" else "false")
  | .string _, _ => .literal literal .string
  | .number _, _ => .literal literal .number
  | .bool _, _ => .literal literal .bool
  | .null, _ => .literal .null .null

def isNumeric : Ty → Bool
  | .int | .number | .any | .error => true
  | _ => false

def arithmeticTy (op : BinaryOp) (left right : Ty) : Option Ty :=
  if op == .add && (left == .string || right == .string) then some .string
  else if op != .div && left == .int && right == .int then some .int
  else if isNumeric left && isNumeric right then some .number
  else none

def elementTy (collection : Ty) : Option Ty :=
  match collection.resolved with
  | .list element => some element
  | .map values => some values
  | .any => some .any
  | .union _ => some .any
  | .error => some .error
  | _ => none

def joinTys : List Ty → Option Ty
  | [] => none
  | first :: rest => some (rest.foldl Ty.join first)

def memberTy (exprs : List Bound.Expr) : Option Ty :=
  joinTys (exprs.map (·.ty.withoutEventual))

def itemSlot (expected : Ty) : Ty :=
  match expected.resolved with
  | .list element => element
  | _ => .any

def listTy (expected : Ty) (items : List Bound.Expr) : Ty :=
  match expected.resolved with
  | .list element => .list element
  | _ => .list ((memberTy items).getD .any)

def valueSlot (expected : Ty) : Ty :=
  match expected.resolved with
  | .map values => values
  | _ => .any

def mapTy (expected : Ty) (values : List Bound.Expr) : Ty :=
  match expected.resolved with
  | .map values => .map values
  | _ => .map ((memberTy values).getD .any)

def structTarget (expected : Ty) : Option String :=
  match expected.resolved with
  | .object token => some token
  | .union members =>
    members.findSome? fun member =>
      match member.resolved with
      | .object token => some token
      | _ => none
  | _ => none

/-- Puts a text into the only scalar property of a struct, when there is one that takes it. -/
def wrapInStruct (scope : Scope) (value : Bound.Expr) (token : String) (span : Option Span) :
    Bind Bound.Expr := do
  let field := ((scope.registry.struct? token).bind Schema.Struct.soleScalar).filter fun field =>
    value.ty.resolved.assignable field.toTy
  match field with
  | some field => return .object [⟨field.name, field.toTy, value⟩] (.object token)
  | none =>
    let message :=
      s!"a {value.tag} of type {value.ty.text} cannot be assigned to struct type `{token}`"
    scope.report
      (((Diagnostic.error .typeMismatch message).withSpan span).withHelp
        "write the value as an object with the struct's properties")
    return value

def isText : Bound.Expr → Bool
  | .template .. => true
  | .literal (.string _) _ => true
  | _ => false

/-- Checks a bound value against its slot. A conditional needs no check of its own, since both
branches were bound into the same slot. -/
def settle (scope : Scope) (value : Bound.Expr) (expected : Ty) (span : Option Span) :
    Bind Bound.Expr := do
  match value with
  | .conditional .. => return value
  | _ =>
    if value.ty.assignable expected then return value
    else
      match isText value, expected.resolved with
      | true, .object token => wrapInStruct scope value token span
      | _, _ =>
        scope.fail .typeMismatch
          s!"expected a value of type {expected.text}, found {value.tag} of type {value.ty.text}"
          span
        return value

def reportRepeats (scope : Scope) (seen : List String) : List (String × Expr) → Bind Unit
  | [] => pure ()
  | (key, value) :: rest => do
    if seen.contains key then
      scope.fail .duplicateDeclaration s!"key `{key}` appears more than once" value.span
      reportRepeats scope seen rest
    else reportRepeats scope (key :: seen) rest

def reportMissing (scope : Scope) (what token : String) (span : Option Span) (keys : List String) :
    List Schema.Property → Bind Unit
  | [] => pure ()
  | property :: rest => do
    if property.required && !keys.contains property.name then
      scope.fail .typeMismatch s!"missing required {what} `{property.name}` of `{token}`" span
    reportMissing scope what token span keys rest

def slotOf (properties : List Schema.Property) (problem : String → String) (key : String) :
    Except String Ty :=
  match Schema.findProperty properties key with
  | some property => .ok property.toTy
  | none => .error (problem key)

/-! ## Declared inputs

The arguments of a provider function and the properties of a resource are checked against the
inputs that the schema of the token declares. Without a schema the token is reported and any input
is taken. -/

def reportToken (scope : Scope) (what token : String) (declared : Bool) (span : Option Span) :
    Bind Unit := do
  if let .error fault := TypeToken.parse token then scope.report fault.toDiagnostic
  if !declared then scope.fail .schema s!"unknown {what} `{token}`" span

def inputSlot (inputs : Option (List Schema.Property)) (what token key : String) :
    Except String Ty :=
  match inputs with
  | none => .ok .any
  | some inputs => slotOf inputs (fun key => s!"`{key}` is not {what} of `{token}`") key

def reportMissingInputs (scope : Scope) (what token : String) (span : Option Span)
    (keys : List String) : Option (List Schema.Property) → Bind Unit
  | none => pure ()
  | some inputs => reportMissing scope what token span keys inputs

/-- The resources that a function `getX` would read: `aws:ec2/vpc:Vpc` and `aws:ec2:Vpc` for
`aws:ec2/getVpc:getVpc`. -/
def resourceCandidates (function : TypeToken) : List String :=
  match function.name.toList with
  | 'g' :: 'e' :: 't' :: first :: rest =>
    let module := function.modulePath.getD "index"
    let resource := String.ofList (first :: rest)
    let member := String.ofList (first.toLower :: rest)
    [s!"{function.package}:{module}/{member}:{resource}",
      s!"{function.package}:{module}:{resource}"]
  | _ => []

def readsResource (registry : Schema.Registry) (token : String) : Bool :=
  match TypeToken.parse token with
  | .ok parsed =>
    (resourceCandidates parsed).any fun candidate => (registry.resource? candidate).isSome
  | .error _ => false

def resultTy (scope : Scope) (schema : Option Schema.Function) (token : String)
    (field : Option String) (span : Option Span) : Bind Ty := do
  match schema, field with
  | some schema, some field =>
    match schema.output field with
    | some output => return output.toTy
    | none =>
      scope.fail .typeMismatch s!"`{token}` has no result field `{field}`" span
      return .error
  | _, _ => return .any

def unknownBuiltin (name : String) : Diagnostic :=
  (Diagnostic.error .unknownBuiltin s!"unknown builtin function `{name}`").withHelp
    ("available builtins: " ++ ", ".intercalate (Builtin.all.map Builtin.name))

def callTy (builtin : Builtin) (args : List Bound.Expr) : Ty :=
  match builtin, args with
  | .select, _ :: list :: _ => list.ty.elementType
  | .secret, value :: _ => value.ty.withoutEventual
  | builtin, _ => builtin.result

mutual

def bindExpr (scope : Scope) (expected : Ty) : Expr → Bind Bound.Expr
  | .literal literal span => settle scope (bindLiteral literal expected) expected span
  | .template parts span => do
    let parts ← bindParts scope parts
    let ty := eventualIf (Bound.Expr.partsContainEventual parts) .string
    settle scope (.template parts ty) expected span
  | .object entries span => do
    reportRepeats scope [] entries
    match structTarget expected with
    | some token =>
      match scope.registry.struct? token with
      | none =>
        scope.report
          ((Diagnostic.warning .schema
            s!"no schema for type `{token}`; properties are not checked").withSpan span)
        let entries ← bindEntries scope (fun _ => .ok .any) span [] entries
        settle scope (.object entries (.object token)) expected span
      | some schema =>
        let slot := slotOf schema.properties fun key => s!"`{key}` is not a property of `{token}`"
        let bound ← bindEntries scope slot span [] entries
        reportMissing scope "property" token span (entries.map Prod.fst) schema.properties
        settle scope (.object bound (.object token)) expected span
    | none =>
      let entries ← bindEntries scope (fun _ => .ok (valueSlot expected)) span [] entries
      let ty := mapTy expected (entries.map Bound.Slot.value)
      settle scope (.object entries ty) expected span
  | .array items span => do
    let items ← bindList scope (itemSlot expected) items
    settle scope (.array items (listTy expected items)) expected span
  | .tuple items span => do
    let items ← bindList scope (itemSlot expected) items
    settle scope (.tuple items (listTy expected items)) expected span
  | .access path span => do
    let value ← bindAccess scope path span
    settle scope value expected span
  | .call name args span => do
    match Builtin.ofName? name with
    | none =>
      scope.report ((unknownBuiltin name).withSpan span)
      settle scope .failed expected span
    | some builtin =>
      if args.length != builtin.params.length then
        let arity := builtin.params.length
        scope.fail .typeMismatch
          s!"`{builtin.name}` takes {arity} argument(s) but {args.length} were supplied" span
        settle scope .failed expected span
      else
        let args ← bindArgs scope builtin.params args
        let eventual := builtin.returnsEventual || Bound.Expr.someContainEventual args
        settle scope (.call builtin args (eventualIf eventual (callTy builtin args))) expected span
  | .invoke token args field span => do
    let schema := scope.registry.function? token
    let inputs := schema.map Schema.Function.inputs
    reportToken scope "function" token schema.isSome span
    reportRepeats scope [] args
    let bound ← bindEntries scope (inputSlot inputs "an argument" token) span [] args
    reportMissingInputs scope "argument" token span (args.map Prod.fst) inputs
    let result ← resultTy scope schema token field span
    let reads := readsResource scope.registry token
    settle scope (.invoke token bound field reads result.mkEventual) expected span
  | .conditional condition accepted rejected span => do
    let condition ← bindExpr scope .bool condition
    let accepted ← bindExpr scope expected accepted
    let rejected ← bindExpr scope expected rejected
    let joined := accepted.ty.join rejected.ty
    let ty := if condition.containsEventual then joined.mkEventual else joined
    settle scope (.conditional condition accepted rejected ty) expected span
  | .binary op left right span => do
    let operand := if op.isLogical then .bool else .any
    let left ← bindExpr scope operand left
    let right ← bindExpr scope operand right
    let eventual := left.containsEventual || right.containsEventual
    if op.isLogical || op.isComparison then
      settle scope (.binary op left right (eventualIf eventual .bool)) expected span
    else
      match arithmeticTy op left.ty.resolved right.ty.resolved with
      | some ty => settle scope (.binary op left right (eventualIf eventual ty)) expected span
      | none =>
        scope.fail .typeMismatch
          s!"operator `{op.symbol}` cannot be applied to {left.ty.text} and {right.ty.text}" span
        settle scope (.binary op left right (eventualIf eventual .error)) expected span
  | .unary op operand span => do
    match op with
    | .not =>
      let operand ← bindExpr scope .bool operand
      settle scope (.unary op operand (eventualIf operand.containsEventual .bool)) expected span
    | .negate =>
      let operand ← bindExpr scope .number operand
      let ty := if operand.ty.resolved == .int then .int else .number
      settle scope (.unary op operand (eventualIf operand.containsEventual ty)) expected span
  | .index collection key span => do
    let collection ← bindExpr scope .any collection
    let key ← bindExpr scope .any key
    let eventual := collection.containsEventual || key.containsEventual
    match elementTy collection.ty with
    | some ty => settle scope (.index collection key (eventualIf eventual ty)) expected span
    | none =>
      scope.fail .typeMismatch
        s!"cannot index into a value of type {collection.ty.resolved.text}" span
      settle scope (.index collection key (eventualIf eventual .error)) expected span

def bindParts (scope : Scope) : List (Part Expr) → Bind (List (Part Bound.Expr))
  | [] => pure []
  | .text value :: rest => do
    let rest ← bindParts scope rest
    return .text value :: rest
  | .expr value :: rest => do
    let value ← bindExpr scope .any value
    let rest ← bindParts scope rest
    return .expr value :: rest

def bindList (scope : Scope) (slot : Ty) : List Expr → Bind (List Bound.Expr)
  | [] => pure []
  | item :: rest => do
    let item ← bindExpr scope slot item
    let rest ← bindList scope slot rest
    return item :: rest

def bindArgs (scope : Scope) : List Ty → List Expr → Bind (List Bound.Expr)
  | param :: params, arg :: rest => do
    let arg ← bindExpr scope param arg
    let rest ← bindArgs scope params rest
    return arg :: rest
  | _, _ => pure []

/-- Binds the first entry of each key into the slot that the key has; an entry without a slot is
reported and dropped. -/
def bindEntries (scope : Scope) (slot : String → Except String Ty) (span : Option Span)
    (seen : List String) : List (String × Expr) → Bind (List Bound.Member)
  | [] => pure []
  | (key, value) :: rest => do
    if seen.contains key then bindEntries scope slot span seen rest
    else
      match slot key with
      | .error message =>
        scope.fail .typeMismatch message (value.span <|> span)
        bindEntries scope slot span (key :: seen) rest
      | .ok expected =>
        let value ← bindExpr scope expected value
        let rest ← bindEntries scope slot span (key :: seen) rest
        return ⟨key, expected, value⟩ :: rest

end

end Provision.Binding
