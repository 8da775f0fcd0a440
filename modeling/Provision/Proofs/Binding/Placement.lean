import Provision.Proofs.Binding.Fitting
import Provision.Proofs.Render.Places

/-!
# Slots and the places of rendered values

Rendering goes down an expression with the type that is expected of each value, and binding went
down it with slots. The two differ where a slot is open: the items of a list that nothing was
expected of are rendered as values of the type that they have in common.
-/

namespace Provision

namespace Render

variable {expected ty : Ty}

def OpenTo (expected : Ty) : Prop :=
  expected.resolved = .any ∨ expected.resolved = .error ∨
    ∃ members, expected.resolved = .union members

theorem construction_of_struct {token : String} (h : expected.resolved = .object token ∨
    OpenTo expected ∧ ty.resolved = .object token) :
    (construction expected ty).result = .ok (.struct token) := by
  rcases h with h | ⟨h | h | ⟨members, h⟩, hty⟩ <;> simp only [construction, categorize, *] <;> rfl

theorem construction_of_map {values : Ty} (h : expected.resolved = .map values ∨
    OpenTo expected ∧ ty.resolved = .map values) :
    (construction expected ty).result = .ok (.map values) := by
  rcases h with h | ⟨h | h | ⟨members, h⟩, hty⟩ <;> simp only [construction, categorize, *] <;> rfl

end Render

namespace Binding

open Render

/-- How the type that is expected of a rendered value goes with the slot that it was bound in. -/
inductive Suits (expected : Ty) (site : Site) : Prop
  | slot : expected = site.slot → Suits expected site
  | free : expected = .any → Suits expected site
  | under : site.slot = .any → site.bound.ty.Under expected → Suits expected site

section

variable {slot : Ty} {values : List Bound.Expr} {value : Bound.Expr} (hvalue : value ∈ values)
  (item : Expr)

include hvalue

private theorem suits_element {element : Ty} (h : listTy slot values = .list element) :
    Suits element ⟨itemSlot slot, item, value⟩ := by
  unfold listTy at h
  split at h
  · next own hslot =>
    obtain rfl := Ty.list.inj h
    exact .slot (by simp [itemSlot, hslot])
  · next hother =>
    obtain rfl := Ty.list.inj h
    refine .under ?_ (under_memberTy hvalue)
    unfold itemSlot
    split
    · next own hslot => exact absurd hslot (hother own)
    · rfl

theorem suits_mapped {mapped : Ty} (h : mapTy slot values = .map mapped) :
    Suits mapped ⟨valueSlot slot, item, value⟩ := by
  unfold mapTy at h
  split at h
  · next own hslot =>
    obtain rfl := Ty.map.inj h
    exact .slot (by simp [valueSlot, hslot])
  · next hother =>
    obtain rfl := Ty.map.inj h
    refine .under ?_ (under_memberTy hvalue)
    unfold valueSlot
    split
    · next own hslot => exact absurd hslot (hother own)
    · rfl

variable {declared : Expr} {expected ty : Ty} {whole : Bound.Expr}
  (hsuits : Suits expected ⟨slot, declared, whole⟩)

include hsuits

theorem suits_memberType (hwhole : whole.ty = listTy slot values)
    (hty : ty.resolved = whole.ty.resolved) :
    Suits (memberType expected ty) ⟨itemSlot slot, item, value⟩ := by
  unfold memberType
  split
  · next element hexpected =>
    cases hsuits with
    | slot heq =>
      subst heq
      exact .slot (by simp [itemSlot, hexpected])
    | free heq => simp [heq, Ty.resolved] at hexpected
    | under hslot hunder =>
      have hslot : slot = .any := hslot
      subst hslot
      have hlist : whole.ty.resolved = .list ((memberTy values).getD .any) := by
        rw [hwhole]
        rfl
      rcases hunder.list_inv hlist with hany | ⟨wider, hwider, hcommon⟩
      · simp [hexpected] at hany
      · obtain rfl := Ty.list.inj (hexpected.symm.trans hwider)
        exact .under rfl ((under_memberTy hvalue).trans hcommon)
  · obtain ⟨element, hlist⟩ : ∃ element, listTy slot values = .list element := by
      unfold listTy
      split <;> exact ⟨_, rfl⟩
    have helement : ty.elementType = element := by
      rw [Ty.elementType, hty, hwhole, hlist, Ty.resolved]
      all_goals simp
    exact helement ▸ suits_element hvalue item hlist

end

section

variable {registry : Schema.Registry} {symbols : Symbols} {known : Nat → Ty → Prop}
  {reported : Diagnostic → Prop} {slot : Ty} {declared : Expr}

theorem Shape.object_inv {entries : List Bound.Member} {ty : Ty}
    (h : Shape registry symbols known reported slot declared (.object entries ty)) :
    (entries.map (·.key)).Nodup ∧
      ((∃ token, structTarget slot = some token ∧ ty = .object token) ∨
        structTarget slot = none ∧ ty = mapTy slot (entries.map (·.value)) ∧
          ∀ entry ∈ entries, entry.expected = valueSlot slot) := by
  generalize hbound : Bound.Expr.object entries ty = bound at h
  cases h with
  | literal hliteral => exact absurd (hbound.trans hliteral) (ne_bindLiteral (by simp))
  | struct htarget _ hkeeps _ | unchecked htarget _ hkeeps =>
    cases hbound
    exact ⟨hkeeps.nodup, .inl ⟨_, htarget, rfl⟩⟩
  | map htarget hkeeps =>
    cases hbound
    refine ⟨hkeeps.nodup, .inr ⟨htarget, rfl, fun entry hentry => ?_⟩⟩
    exact (Except.ok.inj (hkeeps.slot_eq hentry)).symm
  | wrapped hresolved =>
    cases hbound
    exact ⟨by simp, .inl ⟨_, by simp [structTarget, hresolved], rfl⟩⟩
  | _ => cases hbound

variable {entries : List Bound.Member} {own expected ty : Ty}
  (hshape : Shape registry symbols known reported slot declared (.object entries own))
  (hassignable : own.assignable slot = true)
  (hsuits : Suits expected ⟨slot, declared, .object entries own⟩) (hty : ty.resolved = own.resolved)

include hshape hassignable hsuits hty

theorem Shape.construction_cases :
    (∃ token, structTarget slot = some token ∧ ty.resolved = .object token ∧
      (construction expected ty).result = .ok (.struct token)) ∨
    ∃ mapped values, ty.resolved = .map mapped ∧
      (construction expected ty).result = .ok (.map values) ∧
      ∀ entry ∈ entries, ∀ item, Suits values ⟨entry.expected, item, entry.value⟩ := by
  obtain ⟨-, ⟨token, htarget, rfl⟩ | ⟨htarget, rfl, hentries⟩⟩ := hshape.object_inv
  · refine .inl ⟨token, htarget, hty, construction_of_struct ?_⟩
    cases hsuits with
    | slot heq =>
      subst heq
      unfold structTarget at htarget
      split at htarget
      · next own hslot =>
        obtain rfl := Option.some.inj htarget
        exact .inl hslot
      · next members hslot => exact .inr ⟨.inr (.inr ⟨members, hslot⟩), hty⟩
      · contradiction
    | free heq => exact .inr ⟨.inl (by simp [heq, Ty.resolved]), hty⟩
    | under hslot =>
      have hslot : slot = .any := hslot
      simp [hslot, structTarget, Ty.resolved] at htarget
  · obtain ⟨mapped, hmap⟩ : ∃ mapped, mapTy slot (entries.map (·.value)) = .map mapped := by
      unfold mapTy
      split <;> exact ⟨_, rfl⟩
    have hmapped : ty.resolved = .map mapped := by
      rw [hty, hmap, Ty.resolved]
      all_goals simp
    have hown (entry) (hentry : entry ∈ entries) (item : Expr) :
        Suits mapped ⟨entry.expected, item, entry.value⟩ :=
      hentries entry hentry ▸ suits_mapped (List.mem_map_of_mem hentry) item hmap
    have hopen (h : OpenTo expected) := construction_of_map (.inr ⟨h, hmapped⟩)
    refine .inr ⟨mapped, ?_⟩
    cases hsuits with
    | slot heq =>
      subst heq
      rw [hmap] at hassignable
      rcases Ty.map_assignable_cases hassignable with ⟨wanted, hslot⟩ | hslot
      · refine ⟨wanted, hmapped, construction_of_map (.inl hslot),
          fun entry hentry item => .slot ?_⟩
        simp [hentries entry hentry, valueSlot, hslot]
      · exact ⟨mapped, hmapped, hopen hslot, hown⟩
    | free heq => exact ⟨mapped, hmapped, hopen (.inl (by simp [heq, Ty.resolved])), hown⟩
    | under hslot hunder =>
      have hslot : slot = .any := hslot
      subst hslot
      rcases hunder.map_inv rfl with hany | ⟨wider, hwider, hcommon⟩
      · exact ⟨mapped, hmapped, hopen (.inl hany), hown⟩
      · refine ⟨wider, hmapped, construction_of_map (.inl hwider),
          fun entry hentry item => .under ?_ ?_⟩
        · exact hentries entry hentry
        · exact (under_memberTy (List.mem_map_of_mem hentry)).trans hcommon

end

section

variable {registry : Schema.Registry} {symbols : Symbols} {known : Nat → Ty → Prop}
  {reported : Diagnostic → Prop} {site : Site} {expected ty : Ty}

theorem Shape.exists_site_of_place
    (hshape : Shape registry symbols known reported site.slot site.declared site.bound)
    (hassignable : site.bound.ty.assignable site.slot = true) (hsuits : Suits expected site)
    (hty : ty.resolved = site.bound.ty.resolved) {inner : Ty} {value : Bound.Expr}
    (h : (inner, value) ∈ places expected (site.bound.withTy ty)) :
    ∃ part ∈ sites site.slot site.declared site.bound, part.bound = value ∧ Suits inner part := by
  obtain ⟨slot, declared, bound⟩ := site
  dsimp only at hshape hassignable hty h ⊢
  have hchild : value ∈ bound.children := by simpa using mem_children_of_mem_places h
  have hfree (hinner : inner = .any) :
      ∃ part ∈ sites slot declared bound, part.bound = value ∧ Suits inner part := by
    obtain ⟨part, hpart, hvalue⟩ := hshape.exists_site hchild
    exact ⟨part, hpart, hvalue, .free hinner⟩
  have hslot (hinner : (inner, value) ∈ bound.slots) :
      ∃ part ∈ sites slot declared bound, part.bound = value ∧ Suits inner part := by
    obtain ⟨item, hpart⟩ := hshape.exists_site_of_slot hinner
    exact ⟨_, hpart, rfl, .slot rfl⟩
  have hobject {entries own} (hbound : bound = .object entries own) :
      ∃ part ∈ sites slot declared bound, part.bound = value ∧ Suits inner part := by
    subst hbound
    rw [Bound.Expr.withTy, places] at h
    rcases hshape.construction_cases hassignable hsuits hty with
      ⟨token, -, -, hbuilt⟩ | ⟨-, values, -, hbuilt, hentries⟩
    · rw [hbuilt] at h
      exact hslot h
    · rw [hbuilt] at h
      obtain ⟨entry, hentry, heq⟩ := List.mem_map.mp h
      obtain ⟨rfl, rfl⟩ := Prod.mk.inj heq
      obtain ⟨item, hpart⟩ := hshape.exists_site_of_slot (List.mem_map_of_mem hentry)
      exact ⟨_, hpart, rfl, hentries entry hentry item⟩
  have hlist {items values}
      (hsites : sites slot declared bound = sitesIn (itemSlot slot) items values)
      (hbound : bound.ty = listTy slot values)
      (h : (inner, value) ∈ values.map (memberType expected ty, ·)) :
      ∃ part ∈ sites slot declared bound, part.bound = value ∧ Suits inner part := by
    obtain ⟨part, hpart, rfl⟩ := hshape.exists_site hchild
    obtain ⟨other, hvalue, heq⟩ := List.mem_map.mp h
    obtain ⟨rfl, rfl⟩ := Prod.mk.inj heq
    have hpartSlot : part.slot = itemSlot slot := (mem_sitesIn (hsites ▸ hpart)).1
    have hitem := suits_memberType hvalue part.declared hsuits hbound hty
    rw [← hpartSlot] at hitem
    exact ⟨part, hpart, rfl, hitem⟩
  cases hshape with
  | literal hbound =>
    obtain ⟨_, _, rfl, -⟩ := exists_literal hbound
    simp [Bound.Expr.children] at hchild
  | input | access | stopped | failed => simp [Bound.Expr.children, Bound.Expr.failed] at hchild
  | struct | unchecked | map | wrapped => exact hobject rfl
  | array | tuple => exact hlist rfl rfl h
  | call | invoke => exact hslot h
  | template =>
    obtain ⟨part, -, heq⟩ := List.mem_map.mp h
    exact hfree (Prod.mk.inj heq).1.symm
  | binary | unary | index =>
    simp only [Bound.Expr.withTy, places, List.mem_cons, Prod.mk.injEq, List.not_mem_nil,
      or_false] at h
    exact hfree (by tauto)
  | @conditional _ accepted rejected _ c a r =>
    have hbranch (branch : Expr) {value : Bound.Expr} (hvalue : value.ty.Under (a.ty.join r.ty)) :
        Suits expected ⟨slot, branch, value⟩ := by
      cases hsuits with
      | slot heq => exact .slot heq
      | free heq => exact .free heq
      | under hslot hunder =>
        refine .under hslot (hvalue.trans (hunder.congr_left ?_))
        rw [Bound.Expr.ty]
        split <;> simp
    have hsides := Ty.under_join a.ty r.ty
    simp only [Bound.Expr.withTy, places, List.mem_cons, Prod.mk.injEq, List.not_mem_nil,
      or_false] at h
    rcases h with ⟨rfl, rfl⟩ | ⟨rfl, rfl⟩ | ⟨rfl, rfl⟩
    · exact hslot (by simp [Bound.Expr.slots])
    · exact ⟨⟨slot, accepted, value⟩, by simp [sites], rfl, hbranch accepted hsides.1⟩
    · exact ⟨⟨slot, rejected, value⟩, by simp [sites], rfl, hbranch rejected hsides.2⟩

end

end Binding

end Provision
