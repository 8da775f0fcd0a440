import Provision.Proofs.Lowering.Completeness
import Provision.Proofs.Lowering.Paths

/-!
# Lowering again

Lowering leaves an expression as it is exactly when nothing at an input of it needs an apply.
Nothing at an input of a lowered expression does: what needed an apply has become one, and an apply
passes nothing on. So lowering a lowered program changes nothing, whatever applies and placeholders
were in the program to begin with.
-/

namespace Provision.Bound.Expr

@[simp] theorem passes_mapChildren (f : Expr → Expr) (whole : Expr) :
    (whole.mapChildren f).passes = whole.passes := by
  cases whole <;> rfl

@[simp] theorem isNan_mapChildren (f : Expr → Expr) (whole : Expr) :
    (whole.mapChildren f).isNan = whole.isNan := by
  cases whole <;> rfl

@[simp] theorem isNan_withTy (ty : Ty) (whole : Expr) : (whole.withTy ty).isNan = whole.isNan := by
  cases whole <;> rfl

theorem NanFree.mapChildren {f : Expr → Expr} {whole : Expr} (h : whole.NanFree)
    (hchildren : ∀ child ∈ whole.children, (f child).NanFree) : (whole.mapChildren f).NanFree := by
  refine nanFree_iff.mpr ⟨?_, ?_⟩
  · rw [isNan_mapChildren]
    exact (nanFree_iff.mp h).1
  · rw [children_mapChildren]
    exact List.forall_mem_map.mpr hchildren

theorem NanFree.withTy {whole : Expr} (h : whole.NanFree) (ty : Ty) :
    (whole.withTy ty).NanFree := by
  rw [nanFree_iff] at h ⊢
  simpa using h

end Provision.Bound.Expr

namespace Provision.Lowering

open Provision.Bound.Expr (AtInput)

theorem passes_lowerInput (expr : Bound.Expr) : (lowerInput expr).passes = expr.passes := by
  rcases lowerInput_cases expr with ⟨hcomputes, -, heq⟩ | ⟨-, heq⟩ | heq <;> rw [heq]
  · exact (Bound.Expr.passes_eq_false_of_computes hcomputes).symm
  · exact Bound.Expr.passes_mapChildren lowerInput expr

theorem computes_lift (expr : Bound.Expr) : (lift expr).computes = false := rfl

private theorem not_needsApply_lowerInput (expr : Bound.Expr) : ¬ (lowerInput expr).NeedsApply := by
  rw [Bound.Expr.needsApply_iff]
  rintro ⟨hcomputes, heventual⟩
  rcases lowerInput_cases expr with ⟨-, -, heq⟩ | ⟨hpasses, heq⟩ | heq
  · simp [heq, computes_lift] at hcomputes
  · rw [← passes_lowerInput, Bound.Expr.passes_eq_false_of_computes hcomputes] at hpasses
    contradiction
  · -- An expression left as it is would have been lifted.
    rw [heq] at hcomputes heventual
    rw [lowerInput_of_computes hcomputes, if_pos heventual] at heq
    rw [← heq, computes_lift] at hcomputes
    contradiction

theorem not_needsApply_of_atInput {part expr : Bound.Expr} (h : AtInput part (lowerInput expr)) :
    ¬ part.NeedsApply := by
  induction expr with
  | step expr ih =>
    cases h with
    | self => exact not_needsApply_lowerInput expr
    | under hpasses hchild h =>
      rw [passes_lowerInput] at hpasses
      rw [lowerInput_of_passes hpasses, Bound.Expr.children_mapChildren] at hchild
      obtain ⟨inner, hinner, rfl⟩ := List.mem_map.mp hchild
      exact ih inner hinner h

private theorem lowerInput_eq_self_iff {expr : Bound.Expr} :
    lowerInput expr = expr ↔ ∀ part, AtInput part expr → ¬ part.NeedsApply := by
  constructor
  · intro heq part hpart
    rw [← heq] at hpart
    exact not_needsApply_of_atInput hpart
  · intro h
    induction expr with
    | step expr ih =>
      rcases lowerInput_cases expr with ⟨hcomputes, heventual, -⟩ | ⟨hpasses, heq⟩ | heq
      · exact absurd (Bound.Expr.needsApply_iff.mpr ⟨hcomputes, heventual⟩) (h expr .self)
      · rw [heq]
        refine Bound.Expr.mapChildren_eq_self fun child hchild => ih child hchild ?_
        exact fun part hpart => h part (.under hpasses hchild hpart)
      · exact heq

private theorem lowerInput_lowerInput (expr : Bound.Expr) :
    lowerInput (lowerInput expr) = lowerInput expr :=
  lowerInput_eq_self_iff.mpr fun _ => not_needsApply_of_atInput

section

variable {expr : Bound.Expr} (h : expr.NanFree)

include h

private theorem nanFree_substitute (captures : List Bound.Expr) (params : List String) :
    (substitute captures params expr).NanFree := by
  induction expr with
  | step expr ih =>
    rcases substitute_forms captures params expr with ⟨_, _, -, -, heq⟩ | heq | heq <;> rw [heq]
    · exact Bound.Expr.nanFree_iff.mpr ⟨rfl, by simp [Bound.Expr.children]⟩
    · exact (h.mapChildren fun child hchild => ih child hchild (h.child hchild)).withTy _
    · exact h

private theorem nanFree_lift : (lift expr).NanFree := by
  refine Bound.Expr.nanFree_iff.mpr ⟨rfl, fun child hchild => ?_⟩
  rcases List.mem_append.mp hchild with hcapture | hbody
  · exact h.of_mem (captured_of_mem_collect hcapture).mem_subexprs
  · rw [List.mem_singleton.mp hbody]
    exact nanFree_substitute h _ _

private theorem nanFree_lowerInput : (lowerInput expr).NanFree := by
  induction expr with
  | step expr ih =>
    rcases lowerInput_cases expr with ⟨-, -, heq⟩ | ⟨-, heq⟩ | heq <;> rw [heq]
    · exact nanFree_lift h
    · exact h.mapChildren fun child hchild => ih child hchild (h.child hchild)
    · exact h

end

/-- Lowering a lowered program gives it back, and unless a literal in the program differs from
itself, each expression of the two is found to be the same. -/
theorem lower_lower (program : Bound.Program) :
    lower (lower program) = lower program ∧
      ((∀ expr ∈ program.expressions, expr.NanFree) →
        List.Forall₂ (fun again once => again.same once = true)
          (lower (lower program)).expressions (lower program).expressions) := by
  have heq : lower (lower program) = lower program := by
    simp only [lower_eq_map, Bound.Program.map_map, lowerInput_lowerInput]
  refine ⟨heq, fun hfree => ?_⟩
  rw [heq, lower_eq_map, Bound.Program.expressions_map]
  refine List.forall₂_same.mpr fun lowered hlowered => ?_
  obtain ⟨expr, hexpr, rfl⟩ := List.mem_map.mp hlowered
  exact Bound.Expr.same_of_unsigned_eq (nanFree_lowerInput (hfree expr hexpr)) rfl

end Provision.Lowering
