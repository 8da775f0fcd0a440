import Provision.Ty.Basic

/-!
# Assignability and joins

`assignable source slot` says whether a value of type `source` may be placed where `slot` is
expected. Eventual values fit wherever their inner type does, since lowering takes care of the
positions that need the plain value. `join` is the common type of two branches.
-/

namespace Provision.Ty

mutual

/-- Whether a slot takes a value, given whether the value is null and which unwrapped types it
fits. Wrappers of the slot are peeled from the outside, and one member of a union suffices. -/
def admits (null : Bool) (fits : Ty → Bool) : Ty → Bool
  | .any => true
  | .error => true
  | .eventual inner => admits null fits inner
  | .optional inner => null || admits null fits inner
  | .union members => admitsSome null fits members
  | slot => fits slot

def admitsSome (null : Bool) (fits : Ty → Bool) : List Ty → Bool
  | [] => false
  | member :: rest => admits null fits member || admitsSome null fits rest

end

mutual

/-- Whether a value of the first type may stand where the second is expected. -/
def assignable : Ty → Ty → Bool
  | .any, _ => true
  | .error, _ => true
  | .eventual inner, slot => assignable inner slot
  | .optional inner, slot => assignable inner slot
  | .union members, slot =>
    match slot.resolved with
    | .any => true
    | .error => true
    | plain => assignableSome members plain
  | .null, slot => admits true (· == .null) slot
  | .int, slot => admits false (fun plain => plain == .int || plain == .number) slot
  | .archive, slot => admits false (fun plain => plain == .archive || plain == .asset) slot
  | .list element, slot =>
    admits false (fun | .list wanted => assignable element wanted | _ => false) slot
  | .map values, slot =>
    admits false (fun | .map wanted => assignable values wanted | _ => false) slot
  | .resource token, slot =>
    admits false (fun | .resource wanted => wanted.isEmpty || token == wanted | _ => false) slot
  | .string, slot => admits false (· == .string) slot
  | .number, slot => admits false (· == .number) slot
  | .bool, slot => admits false (· == .bool) slot
  | .asset, slot => admits false (· == .asset) slot
  | .object token, slot => admits false (· == .object token) slot

def assignableSome : List Ty → Ty → Bool
  | [], _ => false
  | member :: rest, slot => assignable member slot || assignableSome rest slot

end

def joinEventual (left : Ty) (plain : Ty → Ty) : Ty → Ty
  | .error => left
  | .eventual inner => (joinEventual left plain inner).mkEventual
  | right => if left == right then left else plain right

def join : Ty → Ty → Ty
  | .error, right => right
  | .eventual left, right =>
    if .eventual left == right then right else
      match right with
      | .error => .eventual left
      | .eventual inner => (join left inner).mkEventual
      | other => (join left other).mkEventual
  | .null, right => joinEventual .null mkOptional right
  | .int, right =>
    joinEventual .int (fun | .number => .number | .null => .optional .int | _ => .any) right
  | .number, right =>
    joinEventual .number (fun | .int => .number | .null => .optional .number | _ => .any) right
  | .list element, right =>
    joinEventual (.list element)
      (fun
        | .list other => .list (join element other)
        | .null => .optional (.list element)
        | _ => .any) right
  | .map values, right =>
    joinEventual (.map values)
      (fun
        | .map other => .map (join values other)
        | .null => .optional (.map values)
        | _ => .any) right
  | left, right =>
    joinEventual left (fun | .null => left.mkOptional | _ => .any) right

end Provision.Ty
