import Provision.Proofs.Binding.Program

/-!
# The structs that slots name

A slot names structs only as the schema of a declared resource, struct or function does. So when all
tokens of a registry are well formed, every slot names well-formed tokens.
-/

namespace Provision

namespace Ty

mutual

def tokens : Ty → List String
  | .list element => tokens element
  | .map values => tokens values
  | .object token => [token]
  | .union members => tokensAll members
  | .optional inner => tokens inner
  | .eventual inner => tokens inner
  | _ => []

def tokensAll : List Ty → List String
  | [] => []
  | member :: rest => tokens member ++ tokensAll rest

end

def WellNamed (ty : Ty) : Prop := ∀ token ∈ ty.tokens, (TypeToken.ofText? token).isSome = true

instance (ty : Ty) : Decidable ty.WellNamed :=
  inferInstanceAs (Decidable (∀ token ∈ ty.tokens, _))

@[simp] theorem tokens_resolved (ty : Ty) : ty.resolved.tokens = ty.tokens := by
  induction ty using resolved.induct with
  | case1 inner ih => rw [resolved, ih, tokens]
  | case2 inner ih => rw [resolved, ih, tokens]
  | case3 ty notEventual notOptional =>
    rw [resolved]
    · exact notEventual
    · exact notOptional

@[simp] theorem tokens_mkOptional (ty : Ty) : ty.mkOptional.tokens = ty.tokens := by
  cases ty <;> rfl

private theorem mem_tokensAll {token : String} {member : Ty} {members : List Ty}
    (hmember : member ∈ members) (htoken : token ∈ member.tokens) : token ∈ tokensAll members := by
  induction members with
  | nil => simp at hmember
  | cons first rest ih =>
    rw [tokensAll]
    rcases List.mem_cons.mp hmember with rfl | hmember
    · exact List.mem_append_left _ htoken
    · exact List.mem_append_right _ (ih hmember)

theorem wellNamed_of_tokens {ty : Ty} (h : ty.tokens = []) : ty.WellNamed := by
  simp [WellNamed, h]

end Ty

namespace Schema

def Registry.WellNamed (registry : Registry) : Prop :=
  ∀ token declaration, registry.lookup token = some declaration →
    (TypeToken.ofText? token).isSome = true ∧
      ∀ property ∈ declaration.inputs, property.type.toTy.WellNamed

namespace Registry

private theorem wellNamed_iff {registry : Registry} : registry.WellNamed ↔ ∀ entry ∈ registry.index,
    ∀ declaration ∈ registry.lookup entry.1, (TypeToken.ofText? entry.1).isSome = true ∧
      ∀ property ∈ declaration.inputs, property.type.toTy.WellNamed := by
  refine ⟨fun h entry _ declaration => h entry.1 declaration, fun h token declaration hfound => ?_⟩
  cases hplace : registry.index.lookup token with
  | none => simp [lookup, find, hplace, Found.declaration?] at hfound
  | some place =>
    obtain ⟨before, after, hindex, -⟩ := List.lookup_eq_some_iff.mp hplace
    exact h (token, place) (by simp [hindex]) declaration hfound

instance (registry : Registry) : Decidable registry.WellNamed :=
  decidable_of_iff' _ wellNamed_iff

end Registry

theorem Property.wellNamed_toTy {property : Property} (h : property.type.toTy.WellNamed) :
    property.toTy.WellNamed := by
  unfold toTy
  split
  · exact h
  · simpa [Ty.WellNamed] using h

end Schema

namespace Binding

theorem mem_tokens_of_structTarget {expected : Ty} {token : String}
    (h : structTarget expected = some token) : token ∈ expected.tokens := by
  rw [← expected.tokens_resolved]
  unfold structTarget at h
  split at h
  · next own hresolved =>
    obtain rfl := Option.some.inj h
    simp [hresolved, Ty.tokens]
  · next members hresolved =>
    obtain ⟨member, hmember, hfound⟩ := List.exists_of_findSome?_eq_some h
    rw [hresolved]
    refine Ty.mem_tokensAll hmember ?_
    rw [← member.tokens_resolved]
    split at hfound
    · next own hobject =>
      obtain rfl := Option.some.inj hfound
      simp [hobject, Ty.tokens]
    · contradiction
  · contradiction

private theorem wellNamed_itemSlot {expected : Ty} (h : expected.WellNamed) :
    (itemSlot expected).WellNamed := by
  unfold itemSlot
  split
  · next element hresolved =>
    rwa [Ty.WellNamed, ← expected.tokens_resolved, hresolved] at h
  · exact Ty.wellNamed_of_tokens rfl

private theorem wellNamed_valueSlot {expected : Ty} (h : expected.WellNamed) :
    (valueSlot expected).WellNamed := by
  unfold valueSlot
  split
  · next values hresolved =>
    rwa [Ty.WellNamed, ← expected.tokens_resolved, hresolved] at h
  · exact Ty.wellNamed_of_tokens rfl

section

variable {registry : Schema.Registry} (named : registry.WellNamed)

include named

theorem PartSlot.wellNamed {expected slot : Ty} (h : PartSlot registry expected slot)
    (hexpected : expected.WellNamed) : slot.WellNamed := by
  cases h with
  | whole => exact hexpected
  | item => exact wellNamed_itemSlot hexpected
  | value => exact wellNamed_valueSlot hexpected
  | property hlookup hproperty =>
    exact Schema.Property.wellNamed_toTy ((named _ _ hlookup).2 _ hproperty)
  | @param builtin _ hparam =>
    have htokens : ∀ param ∈ builtin.params, param.tokens = [] := by cases builtin <;> decide
    exact Ty.wellNamed_of_tokens (htokens slot hparam)
  | any | bool | number => exact Ty.wellNamed_of_tokens rfl

theorem BoundAs.wellNamed_slot {program : Program} {symbols : Symbols} {state : State}
    {position : Nat} {node : Node} {bound : Bound.Node}
    (h : BoundAs program registry symbols state position node bound) {site : Site}
    (hsite : site ∈ nodeSites node bound) : site.slot.WellNamed := by
  cases h with
  | @config _ type =>
    rw [(mem_sitesIn hsite).1]
    cases type <;> exact Ty.wellNamed_of_tokens rfl
  | resource hshape _ =>
    rcases List.mem_append.mp hsite with hsite | hsite
    · obtain ⟨member, hmember, value, -, rfl⟩ := mem_memberSites.mp hsite
      obtain hany | ⟨declared, hinputs, property, hproperty, hslot⟩ :=
        inputSlot_cases (hshape.keeps.slot_eq hmember)
      · exact Ty.wellNamed_of_tokens (hany ▸ rfl)
      · obtain ⟨schema, hschema, rfl⟩ := Option.map_eq_some_iff.mp hinputs
        have hlookup := Schema.Registry.lookup_of_resource? hschema
        exact hslot ▸ Schema.Property.wellNamed_toTy ((named _ _ hlookup).2 property hproperty)
    · simp only [optionSites, List.mem_append] at hsite
      rcases hsite with ((((((h | h) | h) | h) | h) | h) | h) | h <;>
        exact Ty.wellNamed_of_tokens ((mem_sitesIn h).1 ▸ rfl)
  | «variable» _ | output _ =>
    obtain rfl := List.mem_singleton.mp hsite
    exact Ty.wellNamed_of_tokens rfl

theorem Evaluates.wellNamed {program : Program} {subject : String} {site : Site}
    (h : Evaluates program (bind program registry).1 subject site) : site.slot.WellNamed := by
  obtain ⟨state, outcome⟩ := exists_outcome program registry
  induction h with
  | declared hnode hbound hsite => exact (outcome.boundAs hnode hbound).wellNamed_slot named hsite
  | part hwhole hsite ih =>
    obtain ⟨-, helaborates⟩ := hwhole.elaborates outcome
    exact (helaborates.shape.partSlot hsite).wellNamed named ih

end

end Binding

end Provision
