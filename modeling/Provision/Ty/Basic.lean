/-!
# Types

The type that binding attaches to every expression. `eventual` marks a value that is known only
once the resource that owns it has been provisioned, `error` marks an expression that failed to
bind.
-/

namespace Provision

inductive Ty where
  | string
  | number
  | int
  | bool
  | null
  | any
  | asset
  | archive
  | list (element : Ty)
  | map (values : Ty)
  | object (token : String)
  | union (members : List Ty)
  | optional (inner : Ty)
  | eventual (inner : Ty)
  /-- A resource handle; the empty token stands for any resource. -/
  | resource (token : String)
  | error
  deriving Repr, Inhabited

namespace Ty

mutual

def beq : Ty → Ty → Bool
  | .string, .string => true
  | .number, .number => true
  | .int, .int => true
  | .bool, .bool => true
  | .null, .null => true
  | .any, .any => true
  | .asset, .asset => true
  | .archive, .archive => true
  | .list a, .list b => beq a b
  | .map a, .map b => beq a b
  | .object a, .object b => a == b
  | .union as, .union bs => beqList as bs
  | .optional a, .optional b => beq a b
  | .eventual a, .eventual b => beq a b
  | .resource a, .resource b => a == b
  | .error, .error => true
  | _, _ => false

def beqList : List Ty → List Ty → Bool
  | [], [] => true
  | a :: as, b :: bs => beq a b && beqList as bs
  | _, _ => false

end

instance : BEq Ty := ⟨beq⟩

mutual

private theorem eq_of_beq' : (a b : Ty) → beq a b = true → a = b
  | .list a, b, h => by
    cases b <;> simp only [beq, Bool.false_eq_true] at h
    exact congrArg _ (eq_of_beq' a _ h)
  | .map a, b, h => by
    cases b <;> simp only [beq, Bool.false_eq_true] at h
    exact congrArg _ (eq_of_beq' a _ h)
  | .optional a, b, h => by
    cases b <;> simp only [beq, Bool.false_eq_true] at h
    exact congrArg _ (eq_of_beq' a _ h)
  | .eventual a, b, h => by
    cases b <;> simp only [beq, Bool.false_eq_true] at h
    exact congrArg _ (eq_of_beq' a _ h)
  | .union as, b, h => by
    cases b <;> simp only [beq, Bool.false_eq_true] at h
    exact congrArg _ (eq_of_beqList as _ h)
  | .object _, b, h => by cases b <;> simp_all [beq]
  | .resource _, b, h => by cases b <;> simp_all [beq]
  | .string, b, h => by cases b <;> simp_all [beq]
  | .number, b, h => by cases b <;> simp_all [beq]
  | .int, b, h => by cases b <;> simp_all [beq]
  | .bool, b, h => by cases b <;> simp_all [beq]
  | .null, b, h => by cases b <;> simp_all [beq]
  | .any, b, h => by cases b <;> simp_all [beq]
  | .asset, b, h => by cases b <;> simp_all [beq]
  | .archive, b, h => by cases b <;> simp_all [beq]
  | .error, b, h => by cases b <;> simp_all [beq]

private theorem eq_of_beqList : (as bs : List Ty) → beqList as bs = true → as = bs
  | [], bs, h => by cases bs <;> simp_all [beqList]
  | a :: as, bs, h => by
    cases bs with
    | nil => simp [beqList] at h
    | cons b bs =>
      simp only [beqList, Bool.and_eq_true] at h
      rw [eq_of_beq' a b h.1, eq_of_beqList as bs h.2]

end

mutual

private theorem beq_self : (a : Ty) → beq a a = true
  | .list a => by simp [beq, beq_self a]
  | .map a => by simp [beq, beq_self a]
  | .optional a => by simp [beq, beq_self a]
  | .eventual a => by simp [beq, beq_self a]
  | .union as => by simp [beq, beqList_self as]
  | .object _ => by simp [beq]
  | .resource _ => by simp [beq]
  | .string => rfl
  | .number => rfl
  | .int => rfl
  | .bool => rfl
  | .null => rfl
  | .any => rfl
  | .asset => rfl
  | .archive => rfl
  | .error => rfl

private theorem beqList_self : (as : List Ty) → beqList as as = true
  | [] => rfl
  | a :: as => by simp [beqList, beq_self a, beqList_self as]

end

instance : LawfulBEq Ty where
  eq_of_beq := eq_of_beq' _ _
  rfl := beq_self _

instance : DecidableEq Ty := fun a b =>
  decidable_of_iff (a == b) beq_iff_eq

/-- An absent value is already admitted by an optional type, by `any` and by `error`. -/
def mkOptional : Ty → Ty
  | .optional inner => .optional inner
  | .any => .any
  | .error => .error
  | inner => .optional inner

/-- A value is deferred once: an eventual type and `error` stay as they are. -/
def mkEventual : Ty → Ty
  | .eventual inner => .eventual inner
  | .error => .error
  | inner => .eventual inner

def anyResource : Ty := .resource ""

def isEventual : Ty → Bool
  | .eventual _ => true
  | _ => false

def isScalar : Ty → Bool
  | .string | .number | .int | .bool => true
  | _ => false

def resolved : Ty → Ty
  | .eventual inner => inner.resolved
  | .optional inner => inner.resolved
  | ty => ty

def withoutEventual : Ty → Ty
  | .eventual inner => inner
  | ty => ty

def propagateEventual (source inner : Ty) : Ty :=
  if source.isEventual then inner.mkEventual else inner

def elementType (ty : Ty) : Ty :=
  match ty.resolved with
  | .list element => element
  | .map values => values
  | .error => .error
  | _ => .any

mutual

def text : Ty → String
  | .string => "string"
  | .number => "number"
  | .int => "int"
  | .bool => "bool"
  | .null => "null"
  | .any => "any"
  | .asset => "asset"
  | .archive => "archive"
  | .list element => "list(" ++ text element ++ ")"
  | .map values => "map(" ++ text values ++ ")"
  | .object token => "object(" ++ token ++ ")"
  | .union members => "union(" ++ " | ".intercalate (texts members) ++ ")"
  | .optional inner => "optional(" ++ text inner ++ ")"
  | .eventual inner => "eventual(" ++ text inner ++ ")"
  | .resource token => if token.isEmpty then "resource" else "resource(" ++ token ++ ")"
  | .error => "<error>"

def texts : List Ty → List String
  | [] => []
  | ty :: rest => text ty :: texts rest

end

instance : ToString Ty := ⟨text⟩

end Ty

end Provision
