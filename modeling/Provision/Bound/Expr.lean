import Provision.Builtin
import Provision.Program.Expr

/-!
# Bound expressions

An expression with its names resolved and a type on every node. Lowering adds `apply`, a deferred
computation over eventual values whose body reads them through placeholders; `error` stands in for
what failed to bind.
-/

namespace Provision.Bound

inductive ProgramInput where
  | stack
  | project
  | organization
  | cwd
  deriving DecidableEq, Repr, Inhabited

namespace ProgramInput

def ofName? : String → Option ProgramInput
  | "stack" => some .stack
  | "project" => some .project
  | "organization" => some .organization
  | "cwd" => some .cwd
  | _ => none

def name : ProgramInput → String
  | .stack => "stack"
  | .project => "project"
  | .organization => "organization"
  | .cwd => "cwd"

end ProgramInput

inductive RootKind where
  | resource (token : String)
  | config
  | variable
  | input (input : ProgramInput)
  deriving DecidableEq, Repr, Inhabited

namespace RootKind

def isInput : RootKind → Bool
  | .input _ => true
  | _ => false

def isResource : RootKind → Bool
  | .resource _ => true
  | _ => false

end RootKind

structure Path where
  root : String
  kind : RootKind
  accessors : List Accessor
  deriving DecidableEq, Repr, Inhabited

structure Slot (α : Type) where
  key : String
  expected : Ty
  value : α
  deriving Repr, Inhabited

inductive Expr where
  | literal (value : Literal) (ty : Ty)
  | template (parts : List (Part Expr)) (ty : Ty)
  | object (entries : List (Slot Expr)) (ty : Ty)
  | array (items : List Expr) (ty : Ty)
  | tuple (items : List Expr) (ty : Ty)
  | access (path : Path) (ty : Ty)
  | call (builtin : Builtin) (args : List Expr) (ty : Ty)
  | conditional (condition accepted rejected : Expr) (ty : Ty)
  | binary (op : BinaryOp) (left right : Expr) (ty : Ty)
  | unary (op : UnaryOp) (operand : Expr) (ty : Ty)
  | index (collection key : Expr) (ty : Ty)
  /-- A call of a provider function. `readsResource` marks a function that looks up an existing
  resource of its own module, as `getVpc` does beside `Vpc`. -/
  | invoke (token : String) (args : List (Slot Expr)) (field : Option String)
      (readsResource : Bool) (ty : Ty)
  /-- `params` name the plain values of `args`, in order, inside `body`. -/
  | apply (args : List Expr) (params : List String) (body : Expr) (ty : Ty)
  | placeholder (name : String) (ty : Ty)
  | error (ty : Ty)
  deriving Repr, Inhabited

abbrev Member := Slot Expr

namespace Expr

def ty : Expr → Ty
  | .literal _ ty => ty
  | .template _ ty => ty
  | .object _ ty => ty
  | .array _ ty => ty
  | .tuple _ ty => ty
  | .access _ ty => ty
  | .call _ _ ty => ty
  | .conditional _ _ _ ty => ty
  | .binary _ _ _ ty => ty
  | .unary _ _ ty => ty
  | .index _ _ ty => ty
  | .invoke _ _ _ _ ty => ty
  | .apply _ _ _ ty => ty
  | .placeholder _ ty => ty
  | .error ty => ty

def failed : Expr := .error .error

def string (value : String) : Expr := .literal (.string value) .string

def tag : Expr → String
  | .literal .. => "LiteralValue"
  | .template .. => "Template"
  | .object .. => "ObjectCons"
  | .array .. => "Array"
  | .tuple .. => "Tuple"
  | .access .. => "ScopeTraversal"
  | .call .. => "FunctionCall"
  | .conditional .. => "Conditional"
  | .binary .. => "BinaryOp"
  | .unary .. => "UnaryOp"
  | .index .. => "Index"
  | .invoke .. => "Invoke"
  | .apply .. => "DeferredApply"
  | .placeholder .. => "Placeholder"
  | .error .. => "Error"

mutual

def containsEventual : Expr → Bool
  | .literal _ ty => ty.isEventual
  | .template parts ty => ty.isEventual || partsContainEventual parts
  | .object entries ty => ty.isEventual || slotsContainEventual entries
  | .array items ty => ty.isEventual || someContainEventual items
  | .tuple items ty => ty.isEventual || someContainEventual items
  | .access _ ty => ty.isEventual
  | .call _ args ty => ty.isEventual || someContainEventual args
  | .conditional condition accepted rejected ty =>
    ty.isEventual || containsEventual condition || containsEventual accepted
      || containsEventual rejected
  | .binary _ left right ty => ty.isEventual || containsEventual left || containsEventual right
  | .unary _ operand ty => ty.isEventual || containsEventual operand
  | .index collection key ty =>
    ty.isEventual || containsEventual collection || containsEventual key
  | .invoke _ args _ _ ty => ty.isEventual || slotsContainEventual args
  | .apply args _ body ty => ty.isEventual || someContainEventual args || containsEventual body
  | .placeholder _ ty => ty.isEventual
  | .error ty => ty.isEventual

def someContainEventual : List Expr → Bool
  | [] => false
  | expr :: rest => containsEventual expr || someContainEventual rest

def slotsContainEventual : List (Slot Expr) → Bool
  | [] => false
  | ⟨_, _, value⟩ :: rest => containsEventual value || slotsContainEventual rest

def partsContainEventual : List (Part Expr) → Bool
  | [] => false
  | .text _ :: rest => partsContainEventual rest
  | .expr value :: rest => containsEventual value || partsContainEventual rest

end

mutual

/-- The roots of all accesses to declared nodes, depth first from left to right, with repeats. -/
def accessRoots : Expr → List String
  | .literal .. => []
  | .template parts _ => partRoots parts
  | .object entries _ => slotRoots entries
  | .array items _ => listRoots items
  | .tuple items _ => listRoots items
  | .access path _ => if path.kind.isInput then [] else [path.root]
  | .call _ args _ => listRoots args
  | .conditional condition accepted rejected _ =>
    accessRoots condition ++ accessRoots accepted ++ accessRoots rejected
  | .binary _ left right _ => accessRoots left ++ accessRoots right
  | .unary _ operand _ => accessRoots operand
  | .index collection key _ => accessRoots collection ++ accessRoots key
  | .invoke _ args _ _ _ => slotRoots args
  | .apply args _ body _ => listRoots args ++ accessRoots body
  | .placeholder .. => []
  | .error _ => []

def listRoots : List Expr → List String
  | [] => []
  | expr :: rest => accessRoots expr ++ listRoots rest

def slotRoots : List (Slot Expr) → List String
  | [] => []
  | ⟨_, _, value⟩ :: rest => accessRoots value ++ slotRoots rest

def partRoots : List (Part Expr) → List String
  | [] => []
  | .text _ :: rest => partRoots rest
  | .expr value :: rest => accessRoots value ++ partRoots rest

end

def referencedRoots (expr : Expr) : List String := expr.accessRoots.eraseDups

/-! ## Equality

Two expressions are the same when they agree in every part, numbers compared as numbers: a literal
that is not a number differs from itself. -/

def sameLiteral : Literal → Literal → Bool
  | .string a, .string b => a == b
  | .number a, .number b => a.same b
  | .bool a, .bool b => a == b
  | .null, .null => true
  | _, _ => false

mutual

def same : Expr → Expr → Bool
  | .literal a ty, .literal b ty' => sameLiteral a b && ty == ty'
  | .template a ty, .template b ty' => sameParts a b && ty == ty'
  | .object a ty, .object b ty' => sameSlots a b && ty == ty'
  | .array a ty, .array b ty' => sameList a b && ty == ty'
  | .tuple a ty, .tuple b ty' => sameList a b && ty == ty'
  | .access a ty, .access b ty' => a == b && ty == ty'
  | .call f a ty, .call g b ty' => f == g && sameList a b && ty == ty'
  | .conditional a b c ty, .conditional a' b' c' ty' =>
    same a a' && same b b' && same c c' && ty == ty'
  | .binary op a b ty, .binary op' a' b' ty' => op == op' && same a a' && same b b' && ty == ty'
  | .unary op a ty, .unary op' a' ty' => op == op' && same a a' && ty == ty'
  | .index a b ty, .index a' b' ty' => same a a' && same b b' && ty == ty'
  | .invoke t a f r ty, .invoke t' a' f' r' ty' =>
    t == t' && sameSlots a a' && f == f' && r == r' && ty == ty'
  | .apply a p b ty, .apply a' p' b' ty' => sameList a a' && p == p' && same b b' && ty == ty'
  | .placeholder n ty, .placeholder n' ty' => n == n' && ty == ty'
  | .error ty, .error ty' => ty == ty'
  | _, _ => false

def sameList : List Expr → List Expr → Bool
  | [], [] => true
  | a :: as, b :: bs => same a b && sameList as bs
  | _, _ => false

def sameSlots : List (Slot Expr) → List (Slot Expr) → Bool
  | [], [] => true
  | ⟨key, ty, a⟩ :: as, ⟨key', ty', b⟩ :: bs =>
    key == key' && ty == ty' && same a b && sameSlots as bs
  | _, _ => false

def sameParts : List (Part Expr) → List (Part Expr) → Bool
  | [], [] => true
  | .text a :: as, .text b :: bs => a == b && sameParts as bs
  | .expr a :: as, .expr b :: bs => same a b && sameParts as bs
  | _, _ => false

end

end Expr

end Provision.Bound
