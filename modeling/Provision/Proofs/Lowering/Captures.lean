import Provision.Lowering
import Provision.Proofs.Names
import Provision.Proofs.Sameness

/-!
# The passes of lowering

Each pass as one equation over children, and what the captures of an expression are: the eventual
readings that are met first on the way down, each listed once.
-/

namespace Provision.Bound.Expr

/-- Whether an expression can be written in a program. Applies and placeholders are made by
lowering only. -/
def isSource : Expr → Bool
  | .apply .. => false
  | .placeholder .. => false
  | _ => true

def computes : Expr → Bool
  | .template .. | .conditional .. | .binary .. | .unary .. | .index .. => true
  | .call builtin _ _ => !builtin.returnsEventual
  | _ => false

def passes : Expr → Bool
  | .object .. | .array .. | .tuple .. | .invoke .. => true
  | .call builtin _ _ => builtin.returnsEventual
  | _ => false

theorem passes_eq_false_of_computes {expr : Expr} (h : expr.computes = true) :
    expr.passes = false := by
  cases expr <;> simp_all [computes, passes]

end Provision.Bound.Expr

namespace Provision.Lowering

open Provision.Bound (Slot)

theorem collectList_eq (captures : List Bound.Expr) (items : List Bound.Expr) :
    collectList captures items = items.foldl collect captures := by
  induction items generalizing captures with
  | nil => simp [collectList]
  | cons item rest ih => simp [collectList, ih]

private theorem collectSlots_eq (captures : List Bound.Expr) (slots : List (Slot Bound.Expr)) :
    collectSlots captures slots = (slots.map Slot.value).foldl collect captures := by
  induction slots generalizing captures with
  | nil => simp [collectSlots]
  | cons slot rest ih =>
    obtain ⟨key, expected, value⟩ := slot
    simp [collectSlots, ih]

private theorem collectParts_eq (captures : List Bound.Expr) (parts : List (Part Bound.Expr)) :
    collectParts captures parts = (parts.filterMap Part.value?).foldl collect captures := by
  induction parts generalizing captures with
  | nil => simp [collectParts]
  | cons part rest ih => cases part <;> simp [collectParts, ih, List.filterMap_cons]

theorem collect_eq (captures : List Bound.Expr) (expr : Bound.Expr) :
    collect captures expr =
      if isCapture expr then addCapture captures expr
      else expr.children.foldl collect captures := by
  cases expr with
  | call builtin args ty =>
    cases h : builtin.returnsEventual <;>
      simp [collect, isCapture, h, Bound.Expr.children, collectList_eq]
  | _ =>
    simp [collect, isCapture, Bound.Expr.children, collectList_eq, collectSlots_eq,
      collectParts_eq]

section Substitute

variable (captures : List Bound.Expr) (params : List String)

theorem substituteList_eq (items : List Bound.Expr) :
    substituteList captures params items = items.map (substitute captures params) := by
  induction items with
  | nil => rfl
  | cons item rest ih => simp [substituteList, ih]

theorem substituteSlots_eq (slots : List (Slot Bound.Expr)) :
    substituteSlots captures params slots =
      slots.map (Slot.map (substitute captures params)) := by
  induction slots with
  | nil => rfl
  | cons slot rest ih => simp [substituteSlots, ih, Slot.map]

private theorem substituteParts_eq (parts : List (Part Bound.Expr)) :
    substituteParts captures params parts =
      parts.map (Part.map (substitute captures params)) := by
  induction parts with
  | nil => rfl
  | cons part rest ih => cases part <;> simp [substituteParts, ih, Part.map]

variable {captures params}

theorem substitute_eq_placeholder {expr : Bound.Expr} {param : String}
    (hcapture : isCapture expr = true) (hparam : parameterOf captures params expr = some param) :
    substitute captures params expr = .placeholder param expr.ty.withoutEventual := by
  cases expr <;> simp_all [isCapture, substitute, Bound.Expr.ty]

theorem substitute_eq_mapChildren {expr : Bound.Expr} (hsource : expr.isSource = true)
    (hkept : isCapture expr = true → parameterOf captures params expr = none) :
    substitute captures params expr =
      (expr.mapChildren (substitute captures params)).withTy expr.ty.withoutEventual := by
  cases expr with
  | access path ty =>
    simp only [substitute]
    split
    · next hcapture hparam => simp [hkept hcapture] at hparam
    · rfl
  | call builtin args ty =>
    simp only [substitute]
    split
    · next hcapture hparam => simp [hkept hcapture] at hparam
    · simp [Bound.Expr.mapChildren, Bound.Expr.withTy, Bound.Expr.ty, substituteList_eq]
  | invoke token args field reads ty =>
    simp [substitute, hkept rfl, Bound.Expr.mapChildren, Bound.Expr.withTy, Bound.Expr.ty,
      substituteSlots_eq]
  | apply | placeholder => simp [Bound.Expr.isSource] at hsource
  | literal | template | object | array | tuple | conditional | binary | unary | index | error =>
    simp [substitute, Bound.Expr.mapChildren, Bound.Expr.withTy, Bound.Expr.ty, substituteList_eq,
      substituteSlots_eq, substituteParts_eq]

end Substitute

variable {expr capture whole : Bound.Expr}

theorem lowerList_eq (items : List Bound.Expr) : lowerList items = items.map lowerInput := by
  induction items with
  | nil => rfl
  | cons item rest ih => simp [lowerList, ih]

private theorem lowerSlots_eq (slots : List (Slot Bound.Expr)) :
    lowerSlots slots = slots.map (Slot.map lowerInput) := by
  induction slots with
  | nil => rfl
  | cons slot rest ih => simp [lowerSlots, ih, Slot.map]

theorem lowerInput_of_passes (h : expr.passes = true) :
    lowerInput expr = expr.mapChildren lowerInput := by
  cases expr <;>
    simp_all [Bound.Expr.passes, lowerInput, Bound.Expr.mapChildren, lowerList_eq, lowerSlots_eq]

theorem lowerInput_of_computes (h : expr.computes = true) :
    lowerInput expr = if expr.containsEventual then lift expr else expr := by
  cases expr <;> simp_all [Bound.Expr.computes, lowerInput, liftIfEventual]

theorem lowerInput_of_leaf (hcomputes : expr.computes = false) (hpasses : expr.passes = false) :
    lowerInput expr = expr := by
  cases expr <;> simp_all [Bound.Expr.computes, Bound.Expr.passes, lowerInput]

/-- Lowering lifts an expression that computes with an eventual part, goes on under one that passes
values on, and leaves any other alone. -/
theorem lowerInput_cases (expr : Bound.Expr) :
    (expr.computes = true ∧ expr.containsEventual = true ∧ lowerInput expr = lift expr) ∨
      (expr.passes = true ∧ lowerInput expr = expr.mapChildren lowerInput) ∨
      lowerInput expr = expr := by
  cases hcomputes : expr.computes with
  | true =>
    rw [lowerInput_of_computes hcomputes]
    split
    · next heventual => exact .inl ⟨rfl, heventual, rfl⟩
    · exact .inr (.inr rfl)
  | false =>
    cases hpasses : expr.passes with
    | true => exact .inr (.inl ⟨rfl, lowerInput_of_passes hpasses⟩)
    | false => exact .inr (.inr (lowerInput_of_leaf hcomputes hpasses))

/-- An eventual reading that the expression is or that stands under it, outside of any other. -/
inductive Captured (capture : Bound.Expr) : Bound.Expr → Prop
  | self (h : isCapture capture = true) : Captured capture capture
  | under {child whole : Bound.Expr} (hplain : isCapture whole = false)
      (hchild : child ∈ whole.children) (h : Captured capture child) : Captured capture whole

theorem Captured.mem_subexprs (h : Captured capture whole) : capture ∈ whole.subexprs := by
  induction h with
  | self h => exact Bound.Expr.self_mem_subexprs capture
  | under _ hchild _ ih => exact Bound.Expr.mem_subexprs_of_child hchild ih

/-- Parts that stand under no eventual reading; they may be one. -/
inductive Outside (part : Bound.Expr) : Bound.Expr → Prop
  | self : Outside part part
  | under {child whole : Bound.Expr} (hplain : isCapture whole = false)
      (hchild : child ∈ whole.children) (h : Outside part child) : Outside part whole

theorem captured_iff :
    Captured capture whole ↔ isCapture capture = true ∧ Outside capture whole := by
  constructor
  · intro h
    induction h with
    | self hcapture => exact ⟨hcapture, .self⟩
    | under hplain hchild _ ih => exact ⟨ih.1, .under hplain hchild ih.2⟩
  · rintro ⟨hcapture, h⟩
    induction h with
    | self => exact .self hcapture
    | under hplain hchild _ ih => exact .under hplain hchild ih

theorem Captured.isCapture (h : Captured capture whole) :
    isCapture capture = true := (captured_iff.mp h).1

theorem outside_or_captured {part : Bound.Expr} (h : part ∈ whole.subexprs) :
    Outside part whole ∨ ∃ capture, Captured capture whole ∧ part ∈ capture.subexprs := by
  induction whole with
  | step whole ih =>
    cases hwhole : isCapture whole with
    | true => exact .inr ⟨whole, .self hwhole, h⟩
    | false =>
      rcases Bound.Expr.mem_subexprs.mp h with rfl | ⟨child, hchild, hpart⟩
      · exact .inl .self
      · rcases ih child hchild hpart with houtside | ⟨capture, hcaptured, hmem⟩
        · exact .inl (.under hwhole hchild houtside)
        · exact .inr ⟨capture, .under hwhole hchild hcaptured, hmem⟩

/-- The eventual readings of an expression, depth first from left to right, with repeats. A reading
is not searched for others. -/
def readings (expr : Bound.Expr) : List Bound.Expr :=
  if isCapture expr then [expr] else expr.children.attach.flatMap fun child => readings child.1
termination_by sizeOf expr
decreasing_by exact Bound.Expr.sizeOf_child child.2

theorem readings_eq (expr : Bound.Expr) :
    readings expr = if isCapture expr then [expr] else expr.children.flatMap readings := by
  rw [readings, List.flatMap_subtype (fun _ _ => rfl), List.unattach_attach]

theorem mem_readings {reading : Bound.Expr} : reading ∈ readings expr ↔ Captured reading expr := by
  induction expr with
  | step expr ih =>
    rw [readings_eq]
    split
    · next hcapture =>
      constructor
      · intro h
        obtain rfl := List.mem_singleton.mp h
        exact .self hcapture
      · intro h
        cases h with
        | self => exact List.mem_singleton_self _
        | under hplain => simp [hcapture] at hplain
    · next hplain =>
      rw [List.mem_flatMap]
      constructor
      · rintro ⟨child, hchild, h⟩
        exact .under (by simpa using hplain) hchild ((ih child hchild).mp h)
      · intro h
        cases h with
        | self hcapture => exact absurd hcapture hplain
        | under _ hchild h => exact ⟨_, hchild, (ih _ hchild).mpr h⟩

theorem collect_eq_foldl (captures : List Bound.Expr) (expr : Bound.Expr) :
    collect captures expr = (readings expr).foldl addCapture captures := by
  induction expr generalizing captures with
  | step expr ih =>
    rw [collect_eq, readings_eq]
    split
    · rfl
    · rw [List.foldl_flatMap]
      exact List.foldl_ext _ _ _ fun captures child hchild => ih child hchild captures

section Fold

variable {walk captures : List Bound.Expr} {capture : Bound.Expr}

private theorem mem_addCapture {expr : Bound.Expr} (h : capture ∈ addCapture captures expr) :
    capture ∈ captures ∨ capture = expr := by
  unfold addCapture at h
  split at h <;> simp_all

private theorem mem_addCapture_of_mem (expr : Bound.Expr) (h : capture ∈ captures) :
    capture ∈ addCapture captures expr := by
  unfold addCapture
  split <;> simp [h]

private theorem mem_of_mem_foldl (h : capture ∈ walk.foldl addCapture captures) :
    capture ∈ captures ∨ capture ∈ walk := by
  induction walk generalizing captures with
  | nil => exact .inl h
  | cons reading rest ih =>
    rcases ih h with h | h
    · rcases mem_addCapture h with h | rfl
      · exact .inl h
      · exact .inr List.mem_cons_self
    · exact .inr (List.mem_cons_of_mem _ h)

theorem mem_foldl_of_mem (h : capture ∈ captures) : capture ∈ walk.foldl addCapture captures := by
  induction walk generalizing captures with
  | nil => exact h
  | cons reading rest ih => exact ih (mem_addCapture_of_mem reading h)

end Fold

theorem captured_of_mem_collect {whole capture : Bound.Expr} (h : capture ∈ collect [] whole) :
    Captured capture whole := by
  rw [collect_eq_foldl] at h
  rcases mem_of_mem_foldl h with hnil | hreading
  · simp at hnil
  · exact mem_readings.mp hreading

theorem exists_mem_collect_of_captured {whole reading : Bound.Expr} (h : Captured reading whole) :
    ∃ kept ∈ collect [] whole, kept.unsigned = reading.unsigned := by
  obtain ⟨before, after, hsplit⟩ := List.append_of_mem (mem_readings.mpr h)
  have hadded : ∀ captures, ∃ kept ∈ addCapture captures reading,
      kept.unsigned = reading.unsigned := by
    intro captures
    unfold addCapture
    split
    · next hany =>
      obtain ⟨kept, hkept, hsame⟩ := List.any_eq_true.mp hany
      exact ⟨kept, hkept, Bound.Expr.unsigned_eq_of_same hsame⟩
    · exact ⟨reading, by simp, rfl⟩
  obtain ⟨kept, hkept, heq⟩ := hadded (before.foldl addCapture [])
  refine ⟨kept, ?_, heq⟩
  rw [collect_eq_foldl, hsplit, List.foldl_append, List.foldl_cons]
  exact mem_foldl_of_mem hkept

theorem nodup_parameterNames (reserved : List String) (captures : List Bound.Expr) :
    (parameterNames reserved captures).Nodup :=
  Names.Table.nodup_uniqueAll _ _

theorem parameterOf_eq_some {captures : List Bound.Expr} {params : List String}
    {expr : Bound.Expr} {param : String} (h : parameterOf captures params expr = some param) :
    ∃ position : Nat, ∃ capture : Bound.Expr, captures[position]? = some capture ∧
      params[position]? = some param ∧ capture.unsigned = expr.unsigned := by
  obtain ⟨position, hposition, hparam⟩ := Option.bind_eq_some_iff.mp h
  obtain ⟨hlt, hsame, -⟩ := List.findIdx?_eq_some_iff_getElem.mp hposition
  exact ⟨position, captures[position], List.getElem?_eq_getElem hlt, hparam,
    Bound.Expr.unsigned_eq_of_same hsame⟩

end Provision.Lowering
