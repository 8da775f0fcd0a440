import Provision.Proofs.Tree

/-!
# Expressions up to the sign of zero

Equality of expressions compares numbers as numbers. `unsigned` drops the sign of every zero:
expressions are the same when they become equal under it and no literal in them is no number.
-/

namespace Provision

def Number.unsigned (number : Number) : Number :=
  if number.isZero then .zero false else number

@[simp] theorem Number.unsigned_unsigned (number : Number) :
    number.unsigned.unsigned = number.unsigned := by
  have hzero : (Number.zero false).isZero = true := rfl
  unfold unsigned
  split <;> simp_all

theorem Number.same_iff {first second : Number} :
    first.same second = true ↔ first.unsigned = second.unsigned ∧ first ≠ .nan := by
  have hzero : (Number.zero false).isZero = true := rfl
  have hequal : first.unsigned = second.unsigned ↔
      first = second ∨ (first.isZero = true ∧ second.isZero = true) := by
    constructor
    · intro h
      unfold unsigned at h
      split at h <;> split at h <;> simp_all
    · rintro (rfl | ⟨hfirst, hsecond⟩)
      · rfl
      · simp [unsigned, hfirst, hsecond]
  rw [hequal]
  cases first <;> cases second <;> simp [same, isZero]

def Literal.unsigned : Literal → Literal
  | .number value => .number value.unsigned
  | literal => literal

namespace Bound.Expr

theorem sameLiteral_iff {first second : Literal} :
    sameLiteral first second = true ↔
      first.unsigned = second.unsigned ∧ first ≠ .number .nan := by
  cases first <;> cases second <;> simp [sameLiteral, Literal.unsigned, Number.same_iff]

def unsignTop : Expr → Expr
  | .literal value ty => .literal value.unsigned ty
  | expr => expr

def unsigned : Expr → Expr := transform unsignTop

theorem unsigned_eq (whole : Expr) : whole.unsigned = unsignTop (whole.mapChildren unsigned) :=
  transform_eq unsignTop whole

@[simp] theorem ty_unsignTop (whole : Expr) : whole.unsignTop.ty = whole.ty := by
  cases whole <;> rfl

@[simp] theorem children_unsignTop (whole : Expr) :
    whole.unsignTop.children = whole.children := by
  cases whole <;> rfl

@[simp] theorem ty_unsigned (whole : Expr) : whole.unsigned.ty = whole.ty := by
  rw [unsigned_eq, ty_unsignTop, ty_mapChildren]

@[simp] theorem children_unsigned (whole : Expr) :
    whole.unsigned.children = whole.children.map unsigned := by
  rw [unsigned_eq, children_unsignTop, children_mapChildren]

@[simp] theorem containsEventual_unsigned (whole : Expr) :
    whole.unsigned.containsEventual = whole.containsEventual := by
  induction whole with
  | step whole ih =>
    rw [containsEventual_eq, containsEventual_eq whole, ty_unsigned, children_unsigned,
      any_containsEventual_map ih]

def isNan : Expr → Bool
  | .literal value _ => value == .number .nan
  | _ => false

def NanFree (whole : Expr) : Prop := ∀ part ∈ whole.subexprs, part.isNan = false

theorem NanFree.of_mem {part whole : Expr} (h : whole.NanFree) (hpart : part ∈ whole.subexprs) :
    part.NanFree :=
  fun _ hinner => h _ (mem_subexprs_trans hinner hpart)

theorem NanFree.child {child whole : Expr} (h : whole.NanFree) (hchild : child ∈ whole.children) :
    child.NanFree :=
  h.of_mem (mem_subexprs_of_child hchild (self_mem_subexprs child))

theorem nanFree_iff {whole : Expr} :
    whole.NanFree ↔ whole.isNan = false ∧ ∀ child ∈ whole.children, child.NanFree :=
  forall_mem_subexprs

section Lists

variable {P : Expr → Prop} (hsame : ∀ expr, P expr → ∀ {other : Expr},
  expr.same other = true ↔ expr.unsigned = other.unsigned ∧ expr.NanFree)

include hsame

private theorem sameList_iff {first second : List Expr} (h : ∀ expr ∈ first, P expr) :
    sameList first second = true ↔
      first.map unsigned = second.map unsigned ∧ ∀ expr ∈ first, expr.NanFree := by
  induction first generalizing second with
  | nil => cases second <;> simp [sameList]
  | cons expr rest ih =>
    rw [List.forall_mem_cons] at h
    cases second with
    | nil => simp [sameList]
    | cons other others => grind [sameList]

private theorem sameSlots_iff {first second : List (Slot Expr)}
    (h : ∀ expr ∈ first.map Slot.value, P expr) :
    sameSlots first second = true ↔
      first.map (Slot.map unsigned) = second.map (Slot.map unsigned) ∧
        ∀ expr ∈ first.map Slot.value, expr.NanFree := by
  induction first generalizing second with
  | nil => cases second <;> simp [sameSlots]
  | cons slot rest ih =>
    rw [List.map_cons, List.forall_mem_cons] at h
    cases second with
    | nil => simp [sameSlots]
    | cons other others =>
      obtain ⟨key, expected, value⟩ := slot
      obtain ⟨key', expected', value'⟩ := other
      simp only [sameSlots, Bool.and_eq_true, beq_iff_eq, hsame value h.1, ih h.2,
        List.map_cons, List.cons.injEq, List.forall_mem_cons, Slot.map, Slot.mk.injEq]
      grind

private theorem sameParts_iff {first second : List (Part Expr)}
    (h : ∀ expr ∈ first.filterMap Part.value?, P expr) :
    sameParts first second = true ↔
      first.map (Part.map unsigned) = second.map (Part.map unsigned) ∧
        ∀ expr ∈ first.filterMap Part.value?, expr.NanFree := by
  induction first generalizing second with
  | nil => cases second <;> simp [sameParts]
  | cons part rest ih =>
    cases second with
    | nil => cases part <;> simp [sameParts]
    | cons other others =>
      cases part <;> cases other <;> grind [sameParts, Part.map, Part.value?]

end Lists

/-- Two expressions are the same when they differ at most in the sign of zeros, and no literal in
them differs from itself. -/
theorem same_iff {first second : Expr} :
    first.same second = true ↔ first.unsigned = second.unsigned ∧ first.NanFree := by
  induction first generalizing second with
  | step first ih =>
    have hself : ∀ child ∈ first.children, child ∈ first.children := fun _ => id
    rw [unsigned_eq, unsigned_eq second, nanFree_iff]
    cases first with
    | literal value ty =>
      cases second <;> simp [same, mapChildren, unsignTop, isNan, children, sameLiteral_iff]
      grind
    | template parts ty =>
      have hparts : ∀ others, sameParts parts others = true ↔ _ := fun _ => sameParts_iff ih hself
      cases second <;> simp [same, mapChildren, unsignTop, isNan]
      grind [children]
    | object entries ty | invoke token entries field reads ty =>
      have hentries : ∀ others, sameSlots entries others = true ↔ _ :=
        fun _ => sameSlots_iff ih hself
      cases second <;> simp [same, mapChildren, unsignTop, isNan]
      grind [children]
    | array items ty | tuple items ty | call builtin items ty =>
      have hitems : ∀ others, sameList items others = true ↔ _ := fun _ => sameList_iff ih hself
      cases second <;> simp [same, mapChildren, unsignTop, isNan]
      grind [children]
    | apply args params body ty =>
      have hargs : ∀ others, sameList args others = true ↔ _ := fun _ =>
        sameList_iff ih fun arg harg => List.mem_append_left _ harg
      have hbody := @ih body (by simp [children])
      cases second <;> simp [same, mapChildren, unsignTop, isNan, children, hargs, hbody]
      grind
    | conditional | binary | unary | index =>
      simp only [children, List.forall_mem_cons, List.not_mem_nil] at ih
      cases second <;> simp [same, mapChildren, unsignTop, isNan, children, ih]
      grind
    | access | placeholder | error =>
      cases second <;> simp [same, mapChildren, unsignTop, isNan, children]

theorem unsigned_eq_of_same {first second : Expr} (h : first.same second = true) :
    first.unsigned = second.unsigned :=
  (same_iff.mp h).1

theorem same_of_unsigned_eq {first second : Expr} (hfree : first.NanFree)
    (h : first.unsigned = second.unsigned) : first.same second = true :=
  same_iff.mpr ⟨h, hfree⟩

end Bound.Expr

end Provision
