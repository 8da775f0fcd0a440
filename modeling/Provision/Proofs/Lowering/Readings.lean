import Provision.Proofs.Lowering.Captures

/-!
# The order of captures

Collecting adds the eventual readings of an expression one after the other, as a walk from left to
right meets them. A reading that is the same as an earlier one is dropped, so the captures come in
the order of their first occurrences.
-/

namespace Provision.Lowering

def Follows (walk exprs : List Bound.Expr) : Prop :=
  exprs.Pairwise fun first second => walk.findIdx (·.same first) < walk.findIdx (·.same second)

instance (walk exprs : List Bound.Expr) : Decidable (Follows walk exprs) :=
  inferInstanceAs (Decidable (exprs.Pairwise _))

/-- The captures are the readings of a walk, each once and in the order of first occurrence. -/
structure Lists (walk captures : List Bound.Expr) : Prop where
  subset : captures ⊆ walk
  covers : ∀ reading ∈ walk, ∃ capture ∈ captures, capture.same reading = true
  distinct : captures.Pairwise fun first second => first.same second = false
  follows : Follows walk captures

namespace Lists

variable {walk captures : List Bound.Expr}

section

variable (h : Lists walk captures) (hfree : ∀ reading ∈ walk, reading.NanFree) (expr : Bound.Expr)

include h hfree

theorem findIdx_append {capture : Bound.Expr} (hcapture : capture ∈ captures) :
    (walk ++ [expr]).findIdx (·.same capture) = walk.findIdx (·.same capture) ∧
      walk.findIdx (·.same capture) < walk.length := by
  have hmem := h.subset hcapture
  have hlt : walk.findIdx (·.same capture) < walk.length :=
    List.findIdx_lt_length_of_exists
      ⟨capture, hmem, Bound.Expr.same_of_unsigned_eq (hfree capture hmem) rfl⟩
  exact ⟨by rw [List.findIdx_append, if_pos hlt], hlt⟩

theorem follows_append : Follows (walk ++ [expr]) captures := by
  refine List.Pairwise.imp_of_mem ?_ h.follows
  intro first second hfirst hsecond hlt
  rwa [(h.findIdx_append hfree expr hfirst).1, (h.findIdx_append hfree expr hsecond).1]

theorem drop {expr : Bound.Expr} (hold : ∃ capture ∈ captures, capture.same expr = true) :
    Lists (walk ++ [expr]) captures where
  subset := fun _ hmem => List.mem_append_left _ (h.subset hmem)
  covers := by
    intro reading hreading
    rcases List.mem_append.mp hreading with hreading | hreading
    · exact h.covers reading hreading
    · rwa [List.mem_singleton.mp hreading]
  distinct := h.distinct
  follows := h.follows_append hfree expr

/-- A reading that is the same as no capture is met for the first time: whatever was met before is
the same as a capture. -/
theorem findIdx_eq_length {expr : Bound.Expr}
    (hnew : ∀ capture ∈ captures, capture.same expr = false) :
    walk.findIdx (·.same expr) = walk.length := by
  refine List.findIdx_eq_length.mpr fun reading hreading => ?_
  obtain ⟨capture, hcapture, hsame⟩ := h.covers reading hreading
  cases hmet : reading.same expr with
  | false => rfl
  | true =>
    have heq : capture.unsigned = expr.unsigned :=
      (Bound.Expr.unsigned_eq_of_same hsame).trans (Bound.Expr.unsigned_eq_of_same hmet)
    have hagain := Bound.Expr.same_of_unsigned_eq (hfree capture (h.subset hcapture)) heq
    simp [hnew capture hcapture] at hagain

theorem add {expr : Bound.Expr} (hexpr : expr.NanFree)
    (hnew : ∀ capture ∈ captures, capture.same expr = false) :
    Lists (walk ++ [expr]) (captures ++ [expr]) where
  subset := by
    refine List.append_subset.mpr ⟨fun _ hmem => ?_, fun _ hmem => List.mem_append_right _ hmem⟩
    exact List.mem_append_left _ (h.subset hmem)
  covers := by
    intro reading hreading
    rcases List.mem_append.mp hreading with hreading | hreading
    · obtain ⟨capture, hcapture, hsame⟩ := h.covers reading hreading
      exact ⟨capture, List.mem_append_left _ hcapture, hsame⟩
    · rw [List.mem_singleton.mp hreading]
      exact ⟨expr, by simp, Bound.Expr.same_of_unsigned_eq hexpr rfl⟩
  distinct := by
    refine List.pairwise_append.mpr ⟨h.distinct, List.pairwise_singleton _ _, ?_⟩
    intro capture hcapture other hother
    rw [List.mem_singleton.mp hother]
    exact hnew capture hcapture
  follows := by
    refine List.pairwise_append.mpr
      ⟨h.follows_append hfree expr, List.pairwise_singleton _ _, ?_⟩
    intro capture hcapture other hother
    -- Captures were met within the walk; the new reading is met at its end.
    obtain ⟨heq, hlt⟩ := h.findIdx_append hfree expr hcapture
    rw [List.mem_singleton.mp hother, heq, List.findIdx_append, h.findIdx_eq_length hfree hnew,
      if_neg (Nat.lt_irrefl _)]
    omega

end

theorem addCapture {expr : Bound.Expr} (h : Lists walk captures)
    (hfree : ∀ reading ∈ walk ++ [expr], reading.NanFree) :
    Lists (walk ++ [expr]) (addCapture captures expr) := by
  have hwalk : ∀ reading ∈ walk, reading.NanFree := fun reading hreading =>
    hfree reading (List.mem_append_left _ hreading)
  unfold Lowering.addCapture
  split
  · next hany => exact h.drop hwalk (List.any_eq_true.mp hany)
  · next hnew => exact h.add hwalk (hfree expr (by simp)) (by simpa using hnew)

theorem foldl {rest : List Bound.Expr} (h : Lists walk captures)
    (hfree : ∀ reading ∈ walk ++ rest, reading.NanFree) :
    Lists (walk ++ rest) (rest.foldl Lowering.addCapture captures) := by
  induction rest generalizing walk captures with
  | nil => simpa using h
  | cons reading rest ih =>
    have hsplit : walk ++ reading :: rest = (walk ++ [reading]) ++ rest := by simp
    rw [hsplit] at hfree ⊢
    exact ih (h.addCapture fun other hother => hfree other (List.mem_append_left _ hother)) hfree

end Lists

theorem lists_collect {expr : Bound.Expr} (h : expr.NanFree) :
    Lists (readings expr) (collect [] expr) := by
  have hnil : Lists [] [] := ⟨by simp, by simp, .nil, .nil⟩
  rw [collect_eq_foldl]
  refine hnil.foldl fun reading hreading => ?_
  exact h.of_mem (mem_readings.mp hreading).mem_subexprs

end Provision.Lowering
