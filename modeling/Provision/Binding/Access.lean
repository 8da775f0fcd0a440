import Provision.Binding.State

/-!
# Binding accesses

An access starts at a declared name or at the root of the program inputs and walks through the
types of what it reads. Whatever is read from a resource is eventual.
-/

namespace Provision.Binding

def inputsRoot : String := "pulumi"

def implicitOutputs : List String := ["id", "urn"]

def stepResource (registry : Schema.Registry) (token : String) (accessor : Accessor) :
    Except String (Accessor × Ty) :=
  match accessor with
  | .field name =>
    if implicitOutputs.contains name then .ok (accessor, Ty.mkEventual .string)
    else
      match registry.resource? token with
      | none => .ok (accessor, Ty.mkEventual .any)
      | some schema =>
        match schema.output name with
        | some property => .ok (accessor, property.toTy.mkEventual)
        | none => .error s!"`{token}` has no property `{name}`"
  | _ => .error s!"resource `{token}` cannot be indexed"

def stepStruct (registry : Schema.Registry) (token name : String) (accessor : Accessor) :
    Except String (Accessor × Ty) :=
  match registry.struct? token with
  | none => .ok (accessor, .any)
  | some schema =>
    match schema.property name with
    | some property => .ok (accessor, property.toTy)
    | none => .error s!"`{token}` has no property `{name}`"

def stepValue (registry : Schema.Registry) (current : Ty) (accessor : Accessor) :
    Except String (Accessor × Ty) :=
  match current, accessor with
  | .any, _ => .ok (accessor, .any)
  | .error, _ => .ok (accessor, .error)
  | .union _, _ => .ok (accessor, .any)
  | .object token, .field name => stepStruct registry token name accessor
  | .object token, .key name => stepStruct registry token name accessor
  | .map values, .field name => .ok (.key name, values)
  | .map values, .key name => .ok (.key name, values)
  | .list element, .index _ => .ok (accessor, element)
  | other, _ => .error s!"cannot apply `{accessor.text}` to a value of type {other.text}"

/-- One step from a value of a type: the accessor in its normal form and the type it leads to, or
why there is no such step. -/
def step (registry : Schema.Registry) (current : Ty) (accessor : Accessor) :
    Except String (Accessor × Ty) :=
  match current with
  | .resource token => stepResource registry token accessor
  | _ => stepValue registry current.resolved accessor

/-- Where a walk ends: the accessors in their normal forms, the type, whether a part on the way was
eventual, and the problem that stopped it. -/
structure Walk where
  accessors : List Accessor
  ty : Ty
  eventual : Bool
  problem : Option String

def walk (registry : Schema.Registry) (current : Ty) : List Accessor → Walk
  | [] => ⟨[], current, current.isEventual, none⟩
  | accessor :: rest =>
    match step registry current accessor with
    | .error message => ⟨accessor :: rest, .error, false, some message⟩
    | .ok (normal, next) =>
      let walked := walk registry next rest
      { walked with
        accessors := normal :: walked.accessors
        eventual := current.isEventual || walked.eventual }

def bindAccessors (scope : Scope) (base : Ty) (accessors : List Accessor) (span : Option Span) :
    Bind (List Accessor × Ty) := do
  let walked := walk scope.registry base accessors
  match walked.problem with
  | some message =>
    scope.fail .reference message span
    return (walked.accessors, .error)
  | none => return (walked.accessors, eventualIf walked.eventual walked.ty)

def bindProgramInput (scope : Scope) (path : Access) (span : Option Span) : Bind Bound.Expr := do
  let input :=
    match path.accessors with
    | .field name :: _ => Bound.ProgramInput.ofName? name
    | _ => none
  match input with
  | none =>
    scope.fail .reference s!"unknown program input `{path.text}`" span
    return .failed
  | some input =>
    if 1 < path.accessors.length then
      scope.fail .reference s!"cannot access properties of `{path.text}`" span
      return .failed
    else return .access ⟨path.root, .input input, []⟩ .string

def bindAccess (scope : Scope) (path : Access) (span : Option Span) : Bind Bound.Expr := do
  match scope.symbols.lookup path.root with
  | none =>
    if path.root == inputsRoot then bindProgramInput scope path span
    else
      scope.fail .reference s!"unknown reference `{path.root}`" span
      return .failed
  | some (position, node) =>
    let root ← match node with
      | .config _ type _ _ => pure (some (Bound.RootKind.config, configTy type))
      | .resource _ token _ _ => pure (some (Bound.RootKind.resource token, Ty.resource token))
      | .variable _ _ => do
        let value ← scope.variableValue position
        pure (some (Bound.RootKind.variable, value.ty))
      | .output _ _ => do
        scope.fail .reference s!"output `{path.root}` cannot be referenced" span
        pure none
    match root with
    | none => return .failed
    | some (kind, base) =>
      let (accessors, ty) ← bindAccessors scope base path.accessors span
      return .access ⟨path.root, kind, accessors⟩ ty

end Provision.Binding
