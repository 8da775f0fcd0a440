import Provision.Proofs.Lowering.Applies

/-!
# Arguments of lowered calls

A call that takes plain arguments is written out with plain values, so nothing in its arguments may
be eventual by then. Lowering puts a call that computes with something eventual into an apply, where
all is plain. It leaves two kinds of calls as they are: those in the readings that it hands to an
apply, and those that give something eventual whatever their arguments are. The latter include
`stackReference`, which takes plain arguments.
-/

namespace Provision.Bound.Expr

def fedEventual : Expr → Bool
  | .call builtin args _ => !builtin.acceptsEventual && args.any containsEventual
  | _ => false

def ArgumentsPlain (whole : Expr) : Prop :=
  ∀ builtin args ty, .call builtin args ty ∈ whole.subexprs → builtin.acceptsEventual = false →
    ∀ arg ∈ args, ∀ part ∈ arg.subexprs, part.ty.isEventual = false

variable {whole : Expr}

theorem fedEventual_iff :
    whole.fedEventual = true ↔ ∃ builtin args ty, whole = .call builtin args ty ∧
      builtin.acceptsEventual = false ∧ ∃ arg ∈ args, arg.containsEventual = true := by
  cases whole <;> simp [fedEventual]

theorem argumentsPlain_iff :
    whole.ArgumentsPlain ↔ ∀ part ∈ whole.subexprs, part.fedEventual = false := by
  constructor
  · intro h part hpart
    rw [Bool.eq_false_iff, Ne, fedEventual_iff]
    rintro ⟨builtin, args, ty, rfl, haccepts, arg, harg, heventual⟩
    obtain ⟨inner, hinner, hty⟩ := (containsEventual_iff arg).mp heventual
    rw [h builtin args ty hpart haccepts arg harg inner hinner] at hty
    contradiction
  · intro h builtin args ty hcall haccepts arg harg part hpart
    rw [Bool.eq_false_iff]
    intro hty
    have heventual := (containsEventual_iff arg).mpr ⟨part, hpart, hty⟩
    have hfed := fedEventual_iff.mpr ⟨builtin, args, ty, rfl, haccepts, arg, harg, heventual⟩
    rw [h _ hcall] at hfed
    contradiction

theorem ArgumentsPlain.not_fedEventual {part : Expr} (h : whole.ArgumentsPlain)
    (hpart : part ∈ whole.subexprs) : ¬ part.fedEventual = true := by
  simp [argumentsPlain_iff.mp h part hpart]

theorem argumentsPlain_children :
    whole.ArgumentsPlain ↔
      whole.fedEventual = false ∧ ∀ child ∈ whole.children, child.ArgumentsPlain := by
  simp only [argumentsPlain_iff]
  exact forall_mem_subexprs

theorem containsEventual_of_fedEventual (h : whole.fedEventual = true) :
    whole.containsEventual = true := by
  obtain ⟨builtin, args, ty, rfl, -, arg, harg, heventual⟩ := fedEventual_iff.mp h
  rw [containsEventual_eq, Bool.or_eq_true, List.any_eq_true]
  exact .inr ⟨arg, harg, heventual⟩

theorem argumentsPlain_of_not_containsEventual (h : whole.containsEventual = false) :
    whole.ArgumentsPlain := by
  rw [argumentsPlain_iff]
  intro part hpart
  rw [Bool.eq_false_iff]
  intro hfed
  obtain ⟨inner, hinner, hty⟩ :=
    (containsEventual_iff part).mp (containsEventual_of_fedEventual hfed)
  have hwhole := (containsEventual_iff whole).mpr ⟨inner, mem_subexprs_trans hinner hpart, hty⟩
  simp [h] at hwhole

theorem fedEventual_mapChildren {f : Expr → Expr}
    (h : ∀ child ∈ whole.children, (f child).containsEventual = child.containsEventual) :
    (whole.mapChildren f).fedEventual = whole.fedEventual := by
  cases whole with
  | call builtin args ty =>
    have hargs : (args.map f).any containsEventual = args.any containsEventual :=
      any_containsEventual_map h
    simp only [mapChildren, fedEventual, hargs]
  | _ => rfl

theorem argumentsPlain_unsigned (whole : Expr) :
    whole.unsigned.ArgumentsPlain ↔ whole.ArgumentsPlain := by
  have htop : ∀ whole : Expr, whole.unsigned.fedEventual = whole.fedEventual := by
    intro whole
    have hmapped := fedEventual_mapChildren fun child (_ : child ∈ whole.children) =>
      containsEventual_unsigned child
    rw [← hmapped, unsigned_eq]
    cases whole <;> rfl
  induction whole with
  | step whole ih =>
    rw [argumentsPlain_children, argumentsPlain_children, htop, children_unsigned,
      List.forall_mem_map]
    exact and_congr_right fun _ => forall₂_congr ih

theorem fedEventual_cases (h : whole.fedEventual = true) :
    (∃ args ty, whole = .call .stackReference args ty) ∨ whole.NeedsApply := by
  obtain ⟨builtin, args, ty, rfl, haccepts, -⟩ := fedEventual_iff.mp h
  cases hreturns : builtin.returnsEventual with
  | true =>
    cases builtin <;> first | contradiction | exact .inl ⟨args, ty, rfl⟩
  | false =>
    refine .inr (needsApply_iff.mpr ⟨?_, containsEventual_of_fedEventual h⟩)
    simp [computes, hreturns]

end Provision.Bound.Expr

namespace Provision.Lowering

open Provision.Binding (bind)

variable {part whole : Bound.Expr}

theorem exists_captured_of_isCapture (hcapture : isCapture part = true)
    (h : part ∈ whole.subexprs) : ∃ capture, Captured capture whole ∧ part ∈ capture.subexprs := by
  rcases outside_or_captured h with houtside | hcaptured
  · exact ⟨part, captured_iff.mpr ⟨hcapture, houtside⟩, Bound.Expr.self_mem_subexprs part⟩
  · exact hcaptured

theorem Overlooked.mem_subexprs (h : Overlooked part whole) : part ∈ whole.subexprs := by
  obtain ⟨lifted, capture, hlifted, -, hcapture, hexposed, -⟩ := h
  exact Bound.Expr.mem_subexprs_trans hexposed.mem_subexprs
    (Bound.Expr.mem_subexprs_trans hcapture.mem_subexprs hlifted.mem_subexprs)

private theorem argumentsPlain_substitute {expr : Bound.Expr} (hsource : expr.Source)
    (hflat : ∀ part ∈ expr.subexprs, part.ty.flat = true) (captures : List Bound.Expr)
    (params : List String) : (substitute captures params expr).ArgumentsPlain := by
  refine Bound.Expr.argumentsPlain_of_not_containsEventual ?_
  rw [Bool.eq_false_iff, Ne, Bound.Expr.containsEventual_iff]
  rintro ⟨part, hpart, heventual⟩
  obtain ⟨original, horiginal, hty, -⟩ := exists_of_mem_substitute hsource hpart
  have hplain : part.ty.isEventual = false := by
    rw [hty]
    exact Ty.isEventual_of_plain (hflat original horiginal)
  simp [hplain] at heventual

private theorem argumentsPlain_lift_iff {expr : Bound.Expr} (hsource : expr.Source)
    (hflat : ∀ part ∈ expr.subexprs, part.ty.flat = true) :
    (lift expr).ArgumentsPlain ↔ ∀ capture, Captured capture expr → capture.ArgumentsPlain := by
  rw [Bound.Expr.argumentsPlain_children]
  constructor
  · rintro ⟨-, h⟩ capture hcapture
    obtain ⟨kept, hkept, hsame⟩ := exists_mem_collect_of_captured hcapture
    rw [← Bound.Expr.argumentsPlain_unsigned, ← hsame, Bound.Expr.argumentsPlain_unsigned]
    exact h kept (List.mem_append_left _ hkept)
  · intro h
    refine ⟨rfl, fun child hchild => ?_⟩
    rcases List.mem_append.mp hchild with hkept | hbody
    · exact h child (captured_of_mem_collect hkept)
    · rw [List.mem_singleton.mp hbody]
      exact argumentsPlain_substitute hsource hflat _ _

/-- Each call that takes plain arguments and has something eventual in one of them is put into an
apply: it is no `stackReference`, and it is not overlooked. -/
def LeavesPlain (whole : Bound.Expr) : Prop :=
  ∀ part ∈ whole.subexprs, part.fedEventual = true →
    (∀ args ty, part ≠ .call .stackReference args ty) ∧ ¬ Overlooked part whole

theorem leavesPlain_iff_of_passes (hcomputes : whole.computes = false)
    (hpasses : whole.passes = true) :
    LeavesPlain whole ↔
      whole.fedEventual = false ∧ ∀ child ∈ whole.children, LeavesPlain child := by
  constructor
  · intro h
    constructor
    · refine Bool.eq_false_iff.mpr fun hfed => ?_
      rcases Bound.Expr.fedEventual_cases hfed with ⟨args, ty, heq⟩ | hneeds
      · exact (h whole (Bound.Expr.self_mem_subexprs whole) hfed).1 args ty heq
      · simp [Bound.Expr.NeedsApply, hcomputes] at hneeds
    · intro child hchild part hpart hfed
      obtain ⟨hother, hseen⟩ := h part (Bound.Expr.mem_subexprs_of_child hchild hpart) hfed
      refine ⟨hother, fun hoverlooked => hseen ?_⟩
      exact (overlooked_iff_of_passes hpasses).mpr ⟨child, hchild, hoverlooked⟩
  · rintro ⟨htop, hchildren⟩ part hpart hfed
    constructor
    · rcases Bound.Expr.mem_subexprs.mp hpart with rfl | ⟨child, hchild, hpart⟩
      · simp [htop] at hfed
      · exact (hchildren child hchild part hpart hfed).1
    · intro hoverlooked
      obtain ⟨child, hchild, hbelow⟩ := (overlooked_iff_of_passes hpasses).mp hoverlooked
      exact (hchildren child hchild part hbelow.mem_subexprs hfed).2 hbelow

section

variable {program : Program} {registry : Schema.Registry}

private theorem containsEventual_lowerInput (h : (bind program registry).1.Within part) :
    (lowerInput part).containsEventual = part.containsEventual := by
  induction part with
  | step part ih =>
    rcases lowerInput_cases part with ⟨-, heventual, heq⟩ | ⟨-, heq⟩ | heq <;> rw [heq]
    · obtain ⟨reading, hreading, hkept⟩ := exists_eventual_captured h heventual
      obtain ⟨capture, hcapture, hsame⟩ := exists_mem_collect_of_captured hreading
      rw [heventual, Bound.Expr.containsEventual_eq, Bool.or_eq_true, List.any_eq_true]
      refine .inr ⟨capture, List.mem_append_left _ hcapture, ?_⟩
      rw [← Bound.Expr.containsEventual_unsigned, hsame, Bound.Expr.containsEventual_unsigned]
      exact hkept
    · exact Bound.Expr.containsEventual_mapChildren fun child hchild =>
        ih child hchild (h.child hchild)

private theorem argumentsPlain_lowerInput_of_computes (h : (bind program registry).1.Within whole)
    (hcomputes : whole.computes = true) :
    (lowerInput whole).ArgumentsPlain ↔ LeavesPlain whole := by
  have hpasses := Bound.Expr.passes_eq_false_of_computes hcomputes
  have hsource := source_of_within h
  rw [lowerInput_of_computes hcomputes]
  split
  · next heventual =>
    have hneeds : whole.NeedsApply := Bound.Expr.needsApply_iff.mpr ⟨hcomputes, heventual⟩
    rw [argumentsPlain_lift_iff hsource fun part hpart => flat_of_within (h.of_mem hpart)]
    constructor
    · intro hcaptures part hpart hfed
      constructor
      · rintro args ty rfl
        obtain ⟨capture, hcaptured, hmem⟩ := exists_captured_of_isCapture rfl hpart
        exact (hcaptures capture hcaptured).not_fedEventual hmem hfed
      · intro hoverlooked
        obtain ⟨-, capture, hcaptured, hexposed, -⟩ :=
          (overlooked_iff_of_not_passes hpasses).mp hoverlooked
        exact (hcaptures capture hcaptured).not_fedEventual hexposed.mem_subexprs hfed
    · intro hleaves capture hcaptured
      have hcapture := hsource.of_mem hcaptured.mem_subexprs
      refine Bound.Expr.argumentsPlain_iff.mpr fun part hpart => Bool.eq_false_iff.mpr ?_
      intro hfed
      obtain ⟨hother, hseen⟩ :=
        hleaves part (Bound.Expr.mem_subexprs_trans hpart hcaptured.mem_subexprs) hfed
      rcases Bound.Expr.fedEventual_cases hfed with ⟨args, ty, heq⟩ | hpartNeeds
      · exact hother args ty heq
      · exact hseen ((overlooked_iff_of_not_passes hpasses).mpr ⟨hneeds, capture, hcaptured,
          Bound.Expr.exposed_of_source hcapture hpart, hpartNeeds⟩)
  · next heventual =>
    have hplain : whole.ArgumentsPlain :=
      Bound.Expr.argumentsPlain_of_not_containsEventual (by simpa using heventual)
    exact iff_of_true hplain fun part hpart hfed =>
      absurd hfed (hplain.not_fedEventual hpart)

theorem argumentsPlain_lowerInput_iff (h : (bind program registry).1.Within whole) :
    (lowerInput whole).ArgumentsPlain ↔ LeavesPlain whole := by
  induction whole with
  | step whole ih =>
    cases hcomputes : whole.computes with
    | true => exact argumentsPlain_lowerInput_of_computes h hcomputes
    | false =>
      cases hpasses : whole.passes with
      | true =>
        have htop := Bound.Expr.fedEventual_mapChildren fun child hchild =>
          containsEventual_lowerInput (h.child hchild)
        rw [lowerInput_of_passes hpasses, Bound.Expr.argumentsPlain_children, htop,
          Bound.Expr.children_mapChildren, List.forall_mem_map,
          leavesPlain_iff_of_passes hcomputes hpasses]
        exact and_congr_right fun _ =>
          forall₂_congr fun child hchild => ih child hchild (h.child hchild)
      | false =>
        have hplain : whole.ArgumentsPlain := by
          rw [Bound.Expr.argumentsPlain_children, Bound.Expr.children_of_leaf
            (source_of_within h).isSource hcomputes hpasses]
          refine ⟨Bool.eq_false_iff.mpr fun hfed => ?_, by simp⟩
          rcases Bound.Expr.fedEventual_cases hfed with ⟨args, ty, rfl⟩ | hneeds
          · cases hpasses
          · simp [hneeds.1] at hcomputes
        rw [lowerInput_of_leaf hcomputes hpasses]
        exact iff_of_true hplain fun part hpart hfed =>
          absurd hfed (hplain.not_fedEventual hpart)

end

/-- In a lowered program nothing in the arguments of a call that takes plain ones is eventual,
exactly when each call of the bound program with something eventual there is one that lowering puts
into an apply: it is no `stackReference`, and it does not stand in a reading that an apply gets. -/
theorem argumentsPlain_lower_bind_iff (program : Program) (registry : Schema.Registry) :
    (∀ lowered ∈ (lower (bind program registry).1).expressions, lowered.ArgumentsPlain) ↔
      ∀ expr ∈ (bind program registry).1.expressions, ∀ builtin args ty,
        .call builtin args ty ∈ expr.subexprs → builtin.acceptsEventual = false →
        (∃ arg ∈ args, arg.containsEventual = true) →
          builtin ≠ .stackReference ∧ ¬ Overlooked (.call builtin args ty) expr := by
  rw [lower_eq_map, Bound.Program.expressions_map, List.forall_mem_map]
  refine forall₂_congr fun expr hexpr => ?_
  rw [argumentsPlain_lowerInput_iff ⟨expr, hexpr, Bound.Expr.self_mem_subexprs expr⟩]
  constructor
  · intro h builtin args ty hcall haccepts heventual
    obtain ⟨hother, hseen⟩ := h _ hcall
      (Bound.Expr.fedEventual_iff.mpr ⟨builtin, args, ty, rfl, haccepts, heventual⟩)
    refine ⟨?_, hseen⟩
    rintro rfl
    exact hother args ty rfl
  · intro h part hpart hfed
    obtain ⟨builtin, args, ty, rfl, haccepts, heventual⟩ := Bound.Expr.fedEventual_iff.mp hfed
    obtain ⟨hother, hseen⟩ := h builtin args ty hpart haccepts heventual
    refine ⟨?_, hseen⟩
    rintro _ _ heq
    obtain ⟨rfl, -⟩ := Bound.Expr.call.inj heq
    exact hother rfl

/-- The output of a stack whose name is the id of a bucket: `stackReference(bucket.id, "vpcId")`. -/
def stackOfBucket : Program :=
  ⟨[.resource "bucket" "aws:s3:Bucket" [] {},
    .variable "vpc" (.call "stackReference"
      [.access ⟨"bucket", [.field "id"]⟩ none, .literal (.string "vpcId") none] none)]⟩

/-- A text with an encoded id in a secret: `"x-${secret(toBase64(bucket.id))}"`. -/
def encodedSecret : Program :=
  ⟨[.resource "bucket" "aws:s3:Bucket" [] {},
    .variable "label" (.template [.text "x-",
      .expr (.call "secret" [.call "toBase64"
        [.access ⟨"bucket", [.field "id"]⟩ none] none] none)] none)]⟩

theorem not_argumentsPlain_lower :
    (hasErrors (bind stackOfBucket Binding.bucketRegistry).2 = false ∧
      ¬ ∀ lowered ∈ (lower (bind stackOfBucket Binding.bucketRegistry).1).expressions,
        lowered.ArgumentsPlain) ∧
    hasErrors (bind encodedSecret Binding.bucketRegistry).2 = false ∧
      ¬ ∀ lowered ∈ (lower (bind encodedSecret Binding.bucketRegistry).1).expressions,
        lowered.ArgumentsPlain := by
  let encoded : Bound.Expr := .call .toBase64 [bucketId "bucket"] (.eventual .string)
  let hidden : Bound.Expr := .call .secret [encoded] (.eventual .string)
  let label : Bound.Expr := .template [.text "x-", .expr hidden] (.eventual .string)
  let vpc : Bound.Expr := .call .stackReference
    [bucketId "bucket", .literal (.string "vpcId") .string] (.eventual .any)
  have hvpc : (bind stackOfBucket Binding.bucketRegistry).1.expressions = [vpc] := rfl
  have hlabel : (bind encodedSecret Binding.bucketRegistry).1.expressions = [label] := rfl
  refine ⟨⟨by decide +kernel, fun h => ?_⟩, by decide +kernel, fun h => ?_⟩
  · rw [lower_eq_map, Bound.Program.expressions_map, hvpc] at h
    have hplain : (lowerInput vpc).ArgumentsPlain := h (lowerInput vpc) (by simp)
    exact hplain.not_fedEventual (Bound.Expr.self_mem_subexprs _) rfl
  · rw [lower_eq_map, Bound.Program.expressions_map, hlabel] at h
    have hwithin : (bind encodedSecret Binding.bucketRegistry).1.Within label :=
      ⟨label, by simp [hlabel], Bound.Expr.self_mem_subexprs label⟩
    have hleaves := (argumentsPlain_lowerInput_iff hwithin).mp (h (lowerInput label) (by simp))
    have hoverlooked : Overlooked encoded label := by
      refine ⟨label, hidden, .self, ?_, ?_, ?_, ?_⟩
      · exact Bound.Expr.needsApply_iff.mpr ⟨rfl, rfl⟩
      · exact .under rfl (by simp [label, Bound.Expr.children]) (.self rfl)
      · exact .under (by simp [hidden, Bound.Expr.outer, Bound.Expr.children]) .self
      · exact Bound.Expr.needsApply_iff.mpr ⟨rfl, rfl⟩
    exact (hleaves encoded hoverlooked.mem_subexprs rfl).2 hoverlooked

end Provision.Lowering
