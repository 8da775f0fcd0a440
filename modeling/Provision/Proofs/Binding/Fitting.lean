import Provision.Proofs.Binding.Program

/-!
# Values fit their slots

In a program that binding accepts nothing failed to bind, and every value has a type that its slot
takes. Conditionals are not checked themselves: a slot that takes both branches takes their join.
-/

namespace Provision.Binding

section

variable {registry : Schema.Registry} {symbols : Symbols} {known : Nat → Ty → Prop}
  {reported : Diagnostic → Prop} {expected : Ty} {declared : Expr} {bound : Bound.Expr}

theorem Shape.conditional_inv {c a r : Bound.Expr} {ty : Ty}
    (h : Shape registry symbols known reported expected declared (.conditional c a r ty)) :
    ∃ condition accepted rejected span,
      declared = .conditional condition accepted rejected span ∧
        ty = if c.containsEventual then (a.ty.join r.ty).mkEventual else a.ty.join r.ty := by
  generalize hbound : Bound.Expr.conditional c a r ty = bound at h
  cases h with
  | literal hliteral => exact absurd (hbound.trans hliteral) (ne_bindLiteral (by simp))
  | conditional =>
    cases hbound
    exact ⟨_, _, _, _, rfl, rfl⟩
  | _ => cases hbound

theorem Shape.arity {builtin : Builtin} {args : List Bound.Expr} {ty : Ty}
    (h : Shape registry symbols known reported expected declared (.call builtin args ty)) :
    args.length = builtin.params.length := by
  generalize hbound : Bound.Expr.call builtin args ty = bound at h
  cases h with
  | literal hliteral => exact absurd (hbound.trans hliteral) (ne_bindLiteral (by simp))
  | call _ harity hlength =>
    cases hbound
    exact hlength.trans harity
  | _ => cases hbound

theorem Elaborates.assignable (hclean : ¬ Failing reported)
    (h : Elaborates registry symbols known reported expected declared bound) :
    bound.ty.assignable expected = true := by
  induction h with
  | @node expected declared bound hshape hfits hsites ih =>
    by_cases hconditional : ∃ c a r ty, bound = .conditional c a r ty
    · -- Not checked as a whole; its branches stand in the same slot and were.
      obtain ⟨c, a, r, ty, rfl⟩ := hconditional
      obtain ⟨condition, accepted, rejected, span, rfl, rfl⟩ := hshape.conditional_inv
      have haccepted := ih ⟨expected, accepted, a⟩ (by simp [sites])
      have hrejected := ih ⟨expected, rejected, r⟩ (by simp [sites])
      have hjoin := Ty.assignable_join haccepted hrejected
      rw [Bound.Expr.ty]
      split
      · rwa [Ty.assignable_mkEventual]
      · exact hjoin
    · refine (hfits fun c a r ty hbound => hconditional ⟨c, a, r, ty, hbound⟩).resolve_right ?_
      exact hclean

theorem Shape.exists_site_of_slot
    (h : Shape registry symbols known reported expected declared bound) {slot : Ty}
    {value : Bound.Expr} (hslot : (slot, value) ∈ bound.slots) :
    ∃ item, ⟨slot, item, value⟩ ∈ sites expected declared bound := by
  have hmembers : ∀ {slots again span entries} {members : List Bound.Member},
      Keeps slots again span reported [] entries members →
      (slot, value) ∈ members.map Bound.Slot.typed →
        ∃ item, ⟨slot, item, value⟩ ∈ memberSites entries members := by
    intro slots again span entries members hkeeps hmem
    obtain ⟨member, hmember, heq⟩ := List.mem_map.mp hmem
    cases heq
    exact hkeeps.exists_site hmember
  cases h with
  | literal hbound =>
    obtain ⟨value, ty, rfl, -⟩ := exists_literal hbound
    simp [Bound.Expr.slots] at hslot
  | struct _ _ hkeeps _ | unchecked _ _ hkeeps | map _ hkeeps | invoke _ hkeeps _ _ =>
    exact hmembers hkeeps hslot
  | template | array | tuple | input | access | stopped | failed =>
    simp [Bound.Expr.slots, Bound.Expr.failed] at hslot
  | call _ _ hlength => exact exists_mem_sitesAt hlength hslot
  | conditional =>
    obtain ⟨rfl, rfl⟩ := Prod.mk.inj (List.mem_singleton.mp hslot)
    exact ⟨_, List.mem_cons_self⟩
  | @binary op left right _ l r =>
    simp only [Bound.Expr.slots] at hslot
    split at hslot
    · next hlogical =>
      have hoperand : op.operandTy = .bool := if_pos hlogical
      simp only [List.mem_cons, Prod.mk.injEq, List.not_mem_nil, or_false] at hslot
      rcases hslot with ⟨rfl, rfl⟩ | ⟨rfl, rfl⟩
      · exact ⟨left, by simp [sites, hoperand]⟩
      · exact ⟨right, by simp [sites, hoperand]⟩
    · simp at hslot
  | @unary op =>
    cases op with
    | not | negate =>
      obtain ⟨rfl, rfl⟩ := Prod.mk.inj (List.mem_singleton.mp hslot)
      exact ⟨_, List.mem_cons_self⟩
  | index => simp [Bound.Expr.slots] at hslot
  | wrapped _ _ _ hdeclared _ =>
    obtain ⟨rfl, rfl⟩ := Prod.mk.inj (List.mem_singleton.mp hslot)
    rw [sites_wrapped hdeclared]
    exact ⟨_, List.mem_singleton.mpr rfl⟩

end

theorem Evaluates.assignable {program : Program} {registry : Schema.Registry}
    (hclean : hasErrors (bind program registry).2 = false) {subject : String} {site : Site}
    (h : Evaluates program (bind program registry).1 subject site) :
    site.bound.ty.assignable site.slot = true := by
  obtain ⟨state, outcome⟩ := exists_outcome program registry
  obtain ⟨-, helaborates⟩ := h.elaborates outcome
  refine helaborates.assignable fun hfailing => ?_
  simp [outcome.diagnostics, hfailing.hasErrors] at hclean

/-- Binding is sound: in a program without errors nothing failed to bind, and every value has a type
that its slot takes. -/
theorem bind_sound (program : Program) (registry : Schema.Registry)
    (hclean : hasErrors (bind program registry).2 = false) :
    (∀ part, (bind program registry).1.Within part →
      (∀ ty, part ≠ .error ty) ∧ part.ty ≠ .error ∧
      (∀ builtin args ty, part = .call builtin args ty → args.length = builtin.params.length) ∧
      ∀ slot value, (slot, value) ∈ part.slots → value.ty.assignable slot = true) ∧
    ∀ node ∈ (bind program registry).1.nodes, ∀ slot value, (slot, value) ∈ node.slots →
      value.ty.assignable slot = true := by
  obtain ⟨state, outcome⟩ := exists_outcome program registry
  constructor
  · intro part hwithin
    obtain ⟨subject, site, hsite, rfl⟩ := exists_evaluates hwithin
    obtain ⟨-, helaborates⟩ := hsite.elaborates outcome
    obtain ⟨expr, hexpr, hpart⟩ := hwithin
    obtain ⟨hrules, htidy⟩ := rules_bind hclean hexpr
    refine ⟨fun ty herror => ?_, fun herror => ?_, fun builtin args ty hcall => ?_,
      fun slot value hslot => ?_⟩
    · have hrule := hrules _ hpart
      rw [herror] at hrule
      cases hrule
    · have hty := htidy _ hpart
      rw [herror] at hty
      exact absurd hty Bool.false_ne_true
    · exact (hcall ▸ helaborates.shape).arity
    · obtain ⟨item, hinner⟩ := helaborates.shape.exists_site_of_slot hslot
      exact (hsite.part hinner).assignable hclean
  · intro node hnode slot value hslot
    obtain ⟨position, hbound⟩ := List.mem_iff_getElem?.mp hnode
    obtain ⟨declared, hdeclared, hboundAs⟩ := outcome.exists_declaration hbound
    obtain ⟨item, hsite⟩ := hboundAs.exists_site hslot
    exact (Evaluates.declared hdeclared hbound hsite).assignable hclean

def draftSite : Program :=
  ⟨[.config "draft" .boolean (some (.literal (.bool false) none)) false,
    .resource "site" "aws:s3:Site"
      [("index", .conditional (.unary .not (.access ⟨"draft", []⟩ none) none)
        (.string "index.html") (.string "draft.html") none)] {}]⟩

theorem bind_sound_draftSite :
    hasErrors (bind draftSite siteRegistry).2 = false ∧
      ∃ node ∈ (bind draftSite siteRegistry).1.nodes, ∃ c a r ty,
        (.object "aws:s3:Page", .conditional c a r ty) ∈ node.slots ∧
          ty.assignable (.object "aws:s3:Page") = true := by
  have hclean : hasErrors (bind draftSite siteRegistry).2 = false := by decide +kernel
  have hnode : (bind draftSite siteRegistry).1.nodes[1]? = some ⟨"site", .resource "aws:s3:Site"
      [⟨"index", .object "aws:s3:Page", .conditional
        (.unary .not (.access ⟨"draft", .config, []⟩ .bool) .bool)
        (.object [⟨"path", .string, .string "index.html"⟩] (.object "aws:s3:Page"))
        (.object [⟨"path", .string, .string "draft.html"⟩] (.object "aws:s3:Page"))
        (.object "aws:s3:Page")⟩] {}⟩ := rfl
  have hmem := List.mem_of_getElem? hnode
  exact ⟨hclean, _, hmem, _, _, _, _, List.mem_cons_self,
    (bind_sound draftSite siteRegistry hclean).2 _ hmem _ _ List.mem_cons_self⟩

end Provision.Binding
