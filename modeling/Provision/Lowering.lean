import Provision.Bound.Node
import Provision.Names.Table

/-!
# Lowering

Lowering makes the reading of eventual values explicit. Where an input is expected, an eventual
value can stand by itself: as a property, as a member of an object or array there, as an argument
of `secret`, `stackReference` or a provider function. Any other expression that reads an eventual
value is lifted whole: each distinct eventual reading becomes a parameter of one `apply`.
-/

namespace Provision.Lowering

open Provision.Bound (Slot)

def isCapture : Bound.Expr → Bool
  | .access _ ty => ty.isEventual
  | .call builtin _ _ => builtin.returnsEventual
  | .invoke .. => true
  | _ => false

def addCapture (captures : List Bound.Expr) (expr : Bound.Expr) : List Bound.Expr :=
  if captures.any (·.same expr) then captures else captures ++ [expr]

mutual

/-- Adds the captures of an expression, depth first from left to right. A capture is not searched
for others. -/
def collect (captures : List Bound.Expr) : Bound.Expr → List Bound.Expr
  | .literal .. => captures
  | .template parts _ => collectParts captures parts
  | .object entries _ => collectSlots captures entries
  | .array items _ => collectList captures items
  | .tuple items _ => collectList captures items
  | .access path ty =>
    if isCapture (.access path ty) then addCapture captures (.access path ty) else captures
  | .call builtin args ty =>
    if isCapture (.call builtin args ty) then addCapture captures (.call builtin args ty)
    else collectList captures args
  | .conditional condition accepted rejected _ =>
    collect (collect (collect captures condition) accepted) rejected
  | .binary _ left right _ => collect (collect captures left) right
  | .unary _ operand _ => collect captures operand
  | .index collection key _ => collect (collect captures collection) key
  | .invoke token args field reads ty => addCapture captures (.invoke token args field reads ty)
  | .apply args _ body _ => collect (collectList captures args) body
  | .placeholder .. => captures
  | .error _ => captures

def collectList (captures : List Bound.Expr) : List Bound.Expr → List Bound.Expr
  | [] => captures
  | expr :: rest => collectList (collect captures expr) rest

def collectSlots (captures : List Bound.Expr) : List (Slot Bound.Expr) → List Bound.Expr
  | [] => captures
  | ⟨_, _, value⟩ :: rest => collectSlots (collect captures value) rest

def collectParts (captures : List Bound.Expr) : List (Part Bound.Expr) → List Bound.Expr
  | [] => captures
  | .text _ :: rest => collectParts captures rest
  | .expr value :: rest => collectParts (collect captures value) rest

end

def accessName (path : Bound.Path) : String :=
  (path.accessors.reverse.findSome? fun
    | .field name => some name
    | .key name => some name
    | .index _ => none).getD path.root

def captureName : Bound.Expr → String
  | .access path _ => accessName path
  | .invoke _ _ (some field) _ _ => field
  | .call builtin _ _ => builtin.name
  | _ => "result"

def parameterNames (reserved : List String) (captures : List Bound.Expr) : List String :=
  ((Names.Table.withReserved reserved).uniqueAll (captures.map captureName)).1

def parameterOf (captures : List Bound.Expr) (params : List String) (expr : Bound.Expr) :
    Option String :=
  (captures.findIdx? (·.same expr)).bind fun position => params[position]?

mutual

/-- Puts placeholders for the captures; the types along the way are no longer eventual. -/
def substitute (captures : List Bound.Expr) (params : List String) : Bound.Expr → Bound.Expr
  | .literal value ty => .literal value ty.withoutEventual
  | .template parts ty => .template (substituteParts captures params parts) ty.withoutEventual
  | .object entries ty => .object (substituteSlots captures params entries) ty.withoutEventual
  | .array items ty => .array (substituteList captures params items) ty.withoutEventual
  | .tuple items ty => .tuple (substituteList captures params items) ty.withoutEventual
  | .access path ty =>
    match isCapture (.access path ty), parameterOf captures params (.access path ty) with
    | true, some param => .placeholder param ty.withoutEventual
    | _, _ => .access path ty.withoutEventual
  | .call builtin args ty =>
    match isCapture (.call builtin args ty),
      parameterOf captures params (.call builtin args ty) with
    | true, some param => .placeholder param ty.withoutEventual
    | _, _ => .call builtin (substituteList captures params args) ty.withoutEventual
  | .conditional condition accepted rejected ty =>
    .conditional (substitute captures params condition) (substitute captures params accepted)
      (substitute captures params rejected) ty.withoutEventual
  | .binary op left right ty =>
    .binary op (substitute captures params left) (substitute captures params right)
      ty.withoutEventual
  | .unary op operand ty => .unary op (substitute captures params operand) ty.withoutEventual
  | .index collection key ty =>
    .index (substitute captures params collection) (substitute captures params key)
      ty.withoutEventual
  | .invoke token args field reads ty =>
    match parameterOf captures params (.invoke token args field reads ty) with
    | some param => .placeholder param ty.withoutEventual
    | none =>
      .invoke token (substituteSlots captures params args) field reads ty.withoutEventual
  | .apply args names body ty => .apply args names body ty
  | .placeholder name ty => .placeholder name ty.withoutEventual
  | .error ty => .error ty.withoutEventual

def substituteList (captures : List Bound.Expr) (params : List String) :
    List Bound.Expr → List Bound.Expr
  | [] => []
  | expr :: rest => substitute captures params expr :: substituteList captures params rest

def substituteSlots (captures : List Bound.Expr) (params : List String) :
    List (Slot Bound.Expr) → List (Slot Bound.Expr)
  | [] => []
  | ⟨key, expected, value⟩ :: rest =>
    ⟨key, expected, substitute captures params value⟩ :: substituteSlots captures params rest

def substituteParts (captures : List Bound.Expr) (params : List String) :
    List (Part Bound.Expr) → List (Part Bound.Expr)
  | [] => []
  | .text value :: rest => .text value :: substituteParts captures params rest
  | .expr value :: rest =>
    .expr (substitute captures params value) :: substituteParts captures params rest

end

def lift (expr : Bound.Expr) : Bound.Expr :=
  let captures := collect [] expr
  let params := parameterNames expr.referencedRoots captures
  let body := substitute captures params expr
  .apply captures params body body.ty.mkEventual

def liftIfEventual (expr : Bound.Expr) : Bound.Expr :=
  if expr.containsEventual then lift expr else expr

mutual

def lowerInput : Bound.Expr → Bound.Expr
  | .object entries ty => .object (lowerSlots entries) ty
  | .array items ty => .array (lowerList items) ty
  | .tuple items ty => .tuple (lowerList items) ty
  | .call builtin args ty =>
    if builtin.returnsEventual then .call builtin (lowerList args) ty
    else liftIfEventual (.call builtin args ty)
  | .invoke token args field reads ty => .invoke token (lowerSlots args) field reads ty
  | .template parts ty => liftIfEventual (.template parts ty)
  | .conditional condition accepted rejected ty =>
    liftIfEventual (.conditional condition accepted rejected ty)
  | .binary op left right ty => liftIfEventual (.binary op left right ty)
  | .unary op operand ty => liftIfEventual (.unary op operand ty)
  | .index collection key ty => liftIfEventual (.index collection key ty)
  | .literal value ty => .literal value ty
  | .access path ty => .access path ty
  | .apply args params body ty => .apply args params body ty
  | .placeholder name ty => .placeholder name ty
  | .error ty => .error ty

def lowerList : List Bound.Expr → List Bound.Expr
  | [] => []
  | expr :: rest => lowerInput expr :: lowerList rest

def lowerSlots : List (Slot Bound.Expr) → List (Slot Bound.Expr)
  | [] => []
  | ⟨key, expected, value⟩ :: rest => ⟨key, expected, lowerInput value⟩ :: lowerSlots rest

end

def lower (program : Bound.Program) : Bound.Program :=
  ⟨program.nodes.map (·.map lowerInput)⟩

end Provision.Lowering
