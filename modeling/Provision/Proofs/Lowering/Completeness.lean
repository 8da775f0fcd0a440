import Provision.Proofs.Binding.Program

/-!
# What lowering leaves behind

An expression that computes with plain values must stand in an apply as soon as one of its parts is
eventual. Lowering sees to that at every input position. It does not look into the readings that it
hands to an apply as arguments: `Overlooked` expressions stand there, and they are all that is left
behind.
-/

namespace Provision.Bound.Expr

/-- Parts that stand outside of the bodies of applies. -/
inductive Exposed (part : Expr) : Expr → Prop
  | self : Exposed part part
  | under {child whole : Expr} (hchild : child ∈ whole.outer) (h : Exposed part child) :
      Exposed part whole

/-- Parts where an eventual value can stand by itself. -/
inductive AtInput (part : Expr) : Expr → Prop
  | self : AtInput part part
  | under {child whole : Expr} (hpasses : whole.passes = true) (hchild : child ∈ whole.children)
      (h : AtInput part child) : AtInput part whole

def NeedsApply (expr : Expr) : Prop :=
  expr.computes = true ∧ ∃ part ∈ expr.subexprs, part.ty.isEventual = true

def Settled (whole : Expr) : Prop := ∀ part, Exposed part whole → ¬ part.NeedsApply

theorem needsApply_iff {expr : Expr} :
    expr.NeedsApply ↔ expr.computes = true ∧ expr.containsEventual = true := by
  rw [NeedsApply, containsEventual_iff]

variable {part whole : Expr}

theorem exposed_iff :
    Exposed part whole ↔ part = whole ∨ ∃ child ∈ whole.outer, Exposed part child := by
  constructor
  · intro h
    cases h with
    | self => exact .inl rfl
    | under hchild h => exact .inr ⟨_, hchild, h⟩
  · rintro (rfl | ⟨child, hchild, h⟩)
    · exact .self
    · exact .under hchild h

theorem settled_iff :
    whole.Settled ↔ ¬ whole.NeedsApply ∧ ∀ child ∈ whole.outer, child.Settled := by
  constructor
  · intro h
    exact ⟨h whole .self, fun child hchild part hpart => h part (.under hchild hpart)⟩
  · rintro ⟨htop, hchildren⟩ part hpart
    rcases exposed_iff.mp hpart with rfl | ⟨child, hchild, hpart⟩
    · exact htop
    · exact hchildren child hchild part hpart

theorem outer_of_isSource (h : whole.isSource = true) : whole.outer = whole.children := by
  cases whole <;> simp_all [isSource, outer]

theorem children_of_leaf (hsource : whole.isSource = true) (hcomputes : whole.computes = false)
    (hpasses : whole.passes = false) : whole.children = [] := by
  cases whole <;> simp_all [isSource, computes, passes, children]

theorem Exposed.trans {inner : Expr} (hinner : Exposed inner part) (h : Exposed part whole) :
    Exposed inner whole := by
  induction h with
  | self => exact hinner
  | under hchild _ ih => exact .under hchild ih

theorem Exposed.mem_subexprs (h : Exposed part whole) : part ∈ whole.subexprs := by
  induction h with
  | self => exact self_mem_subexprs part
  | under hchild _ ih => exact mem_subexprs_of_child (outer_subset _ hchild) ih

theorem exposed_of_source (hsource : whole.Source) (h : part ∈ whole.subexprs) :
    Exposed part whole := by
  induction whole with
  | step whole ih =>
    rcases mem_subexprs.mp h with rfl | ⟨child, hchild, hpart⟩
    · exact .self
    · refine .under ?_ (ih child hchild (hsource.child hchild) hpart)
      rwa [outer_of_isSource hsource.isSource]

theorem AtInput.mem_subexprs (h : AtInput part whole) : part ∈ whole.subexprs := by
  induction h with
  | self => exact self_mem_subexprs part
  | under _ hchild _ ih => exact mem_subexprs_of_child hchild ih

@[simp] theorem computes_mapChildren (f : Expr → Expr) (whole : Expr) :
    (whole.mapChildren f).computes = whole.computes := by
  cases whole <;> rfl

@[simp] theorem computes_unsigned (whole : Expr) : whole.unsigned.computes = whole.computes := by
  rw [unsigned_eq]
  cases whole <;> rfl

@[simp] theorem outer_unsigned (whole : Expr) :
    whole.unsigned.outer = whole.outer.map unsigned := by
  rw [unsigned_eq]
  cases whole <;>
    simp [mapChildren, unsignTop, outer, children, Function.comp_def, List.map_filterMap]

@[simp] theorem needsApply_unsigned (whole : Expr) :
    whole.unsigned.NeedsApply ↔ whole.NeedsApply := by
  simp [needsApply_iff]

theorem settled_unsigned (whole : Expr) : whole.unsigned.Settled ↔ whole.Settled := by
  induction whole with
  | step whole ih =>
    rw [settled_iff, settled_iff, needsApply_unsigned, outer_unsigned]
    refine and_congr_right fun _ => ?_
    simp only [List.forall_mem_map]
    exact forall₂_congr fun child hchild => ih child (outer_subset whole hchild)

end Provision.Bound.Expr

namespace Provision.Lowering

open Provision.Bound.Expr (Exposed AtInput)

/-- Parts that need an apply but stand in an argument of one: in a call or a provider function that
an expression lifted as a whole reads. -/
def Overlooked (part whole : Bound.Expr) : Prop :=
  ∃ lifted capture, AtInput lifted whole ∧ lifted.NeedsApply ∧ Captured capture lifted ∧
    Exposed part capture ∧ part.NeedsApply

theorem settled_lift_iff {expr : Bound.Expr} :
    (lift expr).Settled ↔ ∀ capture, Captured capture expr → capture.Settled := by
  have hlift : (lift expr).Settled ↔ ∀ capture ∈ collect [] expr, capture.Settled := by
    rw [Bound.Expr.settled_iff]
    simp [lift, Bound.Expr.NeedsApply, Bound.Expr.computes, Bound.Expr.outer]
  rw [hlift]
  constructor
  · intro h capture hcapture
    obtain ⟨kept, hkept, hsame⟩ := exists_mem_collect_of_captured hcapture
    rw [← Bound.Expr.settled_unsigned, ← hsame, Bound.Expr.settled_unsigned]
    exact h kept hkept
  · intro h capture hcapture
    exact h capture (captured_of_mem_collect hcapture)

variable {whole : Bound.Expr}

theorem overlooked_iff_of_passes {part : Bound.Expr} (hpasses : whole.passes = true) :
    Overlooked part whole ↔ ∃ child ∈ whole.children, Overlooked part child := by
  constructor
  · rintro ⟨lifted, capture, hlifted, hneeds, hrest⟩
    cases hlifted with
    | self =>
      rw [Bound.Expr.passes_eq_false_of_computes hneeds.1] at hpasses
      contradiction
    | under _ hchild hlifted => exact ⟨_, hchild, lifted, capture, hlifted, hneeds, hrest⟩
  · rintro ⟨child, hchild, lifted, capture, hlifted, hrest⟩
    exact ⟨lifted, capture, .under hpasses hchild hlifted, hrest⟩

theorem overlooked_iff_of_not_passes {part : Bound.Expr} (hpasses : whole.passes = false) :
    Overlooked part whole ↔
      whole.NeedsApply ∧ ∃ capture, Captured capture whole ∧ Exposed part capture ∧
        part.NeedsApply := by
  constructor
  · rintro ⟨lifted, capture, hlifted, hneeds, hrest⟩
    cases hlifted with
    | self => exact ⟨hneeds, capture, hrest⟩
    | under h _ _ => simp [hpasses] at h
  · rintro ⟨hneeds, capture, hrest⟩
    exact ⟨whole, capture, .self, hneeds, hrest⟩

variable {part : Bound.Expr}

/-- Parts that stand in the body of an apply, with its parameters for what they read. -/
def Applied (part whole : Bound.Expr) : Prop :=
  ∃ args params body ty, .apply args params body ty ∈ whole.subexprs ∧
    substitute args params part ∈ body.subexprs

theorem Outside.substitute_mem (h : Outside part whole) (hsource : whole.Source)
    (captures : List Bound.Expr) (params : List String) :
    substitute captures params part ∈ (substitute captures params whole).subexprs := by
  induction h with
  | self => exact Bound.Expr.self_mem_subexprs _
  | @under child whole hplain hchild _ ih =>
    rw [substitute_eq_mapChildren hsource.isSource (by simp [hplain])]
    refine Bound.Expr.mem_subexprs_of_child ?_ (ih (hsource.child hchild))
    simpa using ⟨child, hchild, rfl⟩

theorem exposed_lowerInput (h : AtInput part whole) (hsource : whole.Source) :
    Exposed (lowerInput part) (lowerInput whole) := by
  induction h with
  | self => exact .self
  | @under child whole hpasses hchild _ ih =>
    rw [lowerInput_of_passes hpasses]
    refine .under ?_ (ih (hsource.child hchild))
    rw [Bound.Expr.outer_of_isSource (by simpa using hsource.isSource)]
    simpa using ⟨child, hchild, rfl⟩

theorem exposed_lift (h : AtInput part whole) (hsource : whole.Source) (hneeds : part.NeedsApply) :
    Exposed (lift part) (lowerInput whole) := by
  have hexposed := exposed_lowerInput h hsource
  rwa [lowerInput_of_computes hneeds.1, if_pos (Bound.Expr.needsApply_iff.mp hneeds).2] at hexposed

private theorem outside_lifted_or_overlooked (hsource : whole.Source)
    (hpart : part ∈ whole.subexprs) (hneeds : part.NeedsApply) :
    (∃ lifted, AtInput lifted whole ∧ lifted.NeedsApply ∧ Outside part lifted) ∨
      Overlooked part whole := by
  induction whole with
  | step whole ih =>
    cases hcomputes : whole.computes with
    | true =>
      obtain ⟨-, inner, hinner, hty⟩ := id hneeds
      have hwhole : whole.NeedsApply :=
        ⟨hcomputes, inner, Bound.Expr.mem_subexprs_trans hinner hpart, hty⟩
      rcases outside_or_captured hpart with houtside | ⟨capture, hcaptured, hmem⟩
      · exact .inl ⟨whole, .self, hwhole, houtside⟩
      · have hcapture := hsource.of_mem hcaptured.mem_subexprs
        exact .inr ⟨whole, capture, .self, hwhole, hcaptured,
          Bound.Expr.exposed_of_source hcapture hmem, hneeds⟩
    | false =>
      rcases Bound.Expr.mem_subexprs.mp hpart with rfl | ⟨child, hchild, hmem⟩
      · simp [hneeds.1] at hcomputes
      · have hpasses : whole.passes = true := by
          rw [← Bool.not_eq_false]
          intro hleaf
          simp [Bound.Expr.children_of_leaf hsource.isSource hcomputes hleaf] at hchild
        rcases ih child hchild (hsource.child hchild) hmem with
          ⟨lifted, hinput, hrest⟩ | hoverlooked
        · exact .inl ⟨lifted, .under hpasses hchild hinput, hrest⟩
        · exact .inr ((overlooked_iff_of_passes hpasses).mpr ⟨child, hchild, hoverlooked⟩)

theorem applied_or_overlooked (hsource : whole.Source) (hpart : part ∈ whole.subexprs)
    (hneeds : part.NeedsApply) : Applied part (lowerInput whole) ∨ Overlooked part whole := by
  refine (outside_lifted_or_overlooked hsource hpart hneeds).imp_left ?_
  rintro ⟨lifted, hinput, hlifted, houtside⟩
  exact ⟨_, _, _, _, (exposed_lift hinput hsource hlifted).mem_subexprs,
    houtside.substitute_mem (hsource.of_mem hinput.mem_subexprs) _ _⟩

theorem overlooked_of_exposed (hsource : whole.Source) (hexposed : Exposed part (lowerInput whole))
    (hneeds : part.NeedsApply) : Overlooked part whole := by
  induction whole with
  | step whole ih =>
    rcases lowerInput_cases whole with ⟨hcomputes, heventual, heq⟩ | ⟨hpasses, heq⟩ | heq
    · rw [heq] at hexposed
      rcases Bound.Expr.exposed_iff.mp hexposed with rfl | ⟨capture, hcapture, hexposed⟩
      · simp [lift, Bound.Expr.NeedsApply, Bound.Expr.computes] at hneeds
      · exact ⟨whole, capture, .self, Bound.Expr.needsApply_iff.mpr ⟨hcomputes, heventual⟩,
          captured_of_mem_collect hcapture, hexposed, hneeds⟩
    · rw [heq] at hexposed
      rcases Bound.Expr.exposed_iff.mp hexposed with rfl | ⟨child, hchild, hexposed⟩
      · have hcomputes := hneeds.1
        rw [Bound.Expr.computes_mapChildren] at hcomputes
        simp [Bound.Expr.passes_eq_false_of_computes hcomputes] at hpasses
      · rw [Bound.Expr.outer_of_isSource (by simpa using hsource.isSource),
          Bound.Expr.children_mapChildren] at hchild
        obtain ⟨inner, hinner, rfl⟩ := List.mem_map.mp hchild
        exact (overlooked_iff_of_passes hpasses).mpr
          ⟨inner, hinner, ih inner hinner (hsource.child hinner) hexposed⟩
    · rw [heq] at hexposed
      rcases applied_or_overlooked hsource hexposed.mem_subexprs hneeds with happlied | hoverlooked
      · obtain ⟨args, params, body, ty, happly, -⟩ := happlied
        rw [heq] at happly
        simpa [Bound.Expr.isSource] using hsource _ happly
      · exact hoverlooked

theorem settled_lowerInput_iff (hsource : whole.Source) :
    (lowerInput whole).Settled ↔ ∀ part, ¬ Overlooked part whole := by
  constructor
  · rintro hsettled part ⟨lifted, capture, hinput, hneeds, hcaptured, hexposed, hpartNeeds⟩
    have hlift : (lift lifted).Settled := fun inner hinner =>
      hsettled inner (hinner.trans (exposed_lift hinput hsource hneeds))
    exact settled_lift_iff.mp hlift capture hcaptured part hexposed hpartNeeds
  · intro h part hexposed hneeds
    exact h part (overlooked_of_exposed hsource hexposed hneeds)

/-- Lowering a bound program leaves nothing that needs an apply exactly when no reading that it
hands to an apply holds such an expression. -/
theorem settled_lower_bind_iff (program : Program) (registry : Schema.Registry) :
    (∀ expr ∈ (lower (Binding.bind program registry).1).expressions, expr.Settled) ↔
      ∀ expr ∈ (Binding.bind program registry).1.expressions, ∀ part, ¬ Overlooked part expr := by
  rw [lower_eq_map, Bound.Program.expressions_map, List.forall_mem_map]
  exact forall₂_congr fun expr hexpr =>
    settled_lowerInput_iff (Binding.source_bind program registry expr hexpr)

/-- A text in a secret in a text: `"x-${secret("y-${bucket.id}")}"`. -/
def nestedSecret : Program :=
  ⟨[.resource "bucket" "aws:s3:Bucket" [] {},
    .variable "label" (.template [.text "x-",
      .expr (.call "secret" [.template [.text "y-",
        .expr (.access ⟨"bucket", [.field "id"]⟩ none)] none] none)] none)]⟩

theorem not_settled_lower_nestedSecret :
    hasErrors (Binding.bind nestedSecret Binding.bucketRegistry).2 = false ∧
      ¬ ∀ expr ∈ (lower (Binding.bind nestedSecret Binding.bucketRegistry).1).expressions,
        expr.Settled := by
  let id : Bound.Expr :=
    .access ⟨"bucket", .resource "aws:s3:Bucket", [.field "id"]⟩ (.eventual .string)
  let inner : Bound.Expr := .template [.text "y-", .expr id] (.eventual .string)
  let hidden : Bound.Expr := .call .secret [inner] (.eventual .string)
  let label : Bound.Expr := .template [.text "x-", .expr hidden] (.eventual .string)
  have hbound : (Binding.bind nestedSecret Binding.bucketRegistry).1.expressions = [label] := rfl
  refine ⟨by decide +kernel, fun h => ?_⟩
  rw [lower_eq_map, Bound.Program.expressions_map, hbound] at h
  have hsettled : (lowerInput label).Settled := h (lowerInput label) (by simp)
  have hsource : label.Source := by decide
  refine (settled_lowerInput_iff hsource).mp hsettled inner ⟨label, hidden, .self, ?_, ?_, ?_, ?_⟩
  · exact Bound.Expr.needsApply_iff.mpr ⟨rfl, rfl⟩
  · exact .under rfl (by simp [label, Bound.Expr.children]) (.self rfl)
  · exact .under (by simp [hidden, Bound.Expr.outer, Bound.Expr.children]) .self
  · exact Bound.Expr.needsApply_iff.mpr ⟨rfl, rfl⟩

end Provision.Lowering
