import Provision.Proofs.Ty

/-!
# Joins and eventual types

A type is plain when no `eventual` stands in it, and flat when it is plain under at most one outer
`eventual`. Every type that binding works out from flat ones is flat again, whether an error was
reported or not; so it is for every property that is hereditary as being plain is. The join of two
plain types is one of them, an optional form of one, `any`, or a collection of joins; hence a slot
that takes both sides takes the join.
-/

namespace Provision

namespace Ty

/-- Whether no `eventual` stands under the wrappers and collections of the type. -/
def plain : Ty → Bool
  | .list element => element.plain
  | .map values => values.plain
  | .optional inner => inner.plain
  | .eventual _ => false
  | _ => true

def flat (ty : Ty) : Bool := ty.withoutEventual.plain

private theorem plain_of_bare {ty : Ty} (h : ty.bare = true) : ty.plain = true := by
  induction ty using plain.induct with
  | case1 element ih => exact ih h
  | case2 values ih => exact ih h
  | case3 inner ih => exact ih h
  | case4 inner => exact absurd h Bool.false_ne_true
  | case5 ty => cases ty <;> simp_all [plain]

theorem isEventual_of_plain {ty : Ty} (h : ty.plain = true) : ty.isEventual = false := by
  cases ty <;> first | rfl | exact absurd h Bool.false_ne_true

theorem flat_of_plain {ty : Ty} (h : ty.plain = true) : ty.flat = true := by
  rwa [flat, withoutEventual_eq_self (isEventual_of_plain h)]

theorem plain_of_flat {ty : Ty} (h : ty.flat = true) (hplain : ty.isEventual = false) :
    ty.plain = true := by
  rwa [flat, withoutEventual_eq_self hplain] at h

theorem mkEventual_cases (ty : Ty) : ty.mkEventual = ty ∨ ty.mkEventual = .eventual ty := by
  cases ty <;> simp [mkEventual]

theorem eq_or_eq_eventual (ty : Ty) :
    ty = ty.withoutEventual ∨ ty = .eventual ty.withoutEventual := by
  cases ty <;> simp [withoutEventual]

theorem mkEventual_ne_eventual_error {ty : Ty} (h : ty.isEventual = false) :
    ty.mkEventual ≠ .eventual .error := by
  cases ty <;> simp_all [mkEventual, isEventual]

structure Hereditary (property : Ty → Prop) : Prop extends Closed property where
  error : property .error

theorem hereditary_plain : Hereditary fun ty => ty.plain = true :=
  ⟨⟨plain_of_bare, Bool.false_ne_true, Iff.rfl, Iff.rfl, Iff.rfl⟩, rfl⟩

namespace Hereditary

variable {property : Ty → Prop} (h : Hereditary property) {ty : Ty}

include h

theorem plain (hty : property ty) : ty.plain = true := by
  induction ty using plain.induct with
  | case1 element ih => exact ih (h.list.mp hty)
  | case2 values ih => exact ih (h.map.mp hty)
  | case3 inner ih => exact ih (h.optional.mp hty)
  | case4 inner => exact absurd hty h.not_eventual
  | case5 ty => cases ty <;> simp_all [Ty.plain]

theorem withoutEventual (hty : property ty) : property ty.withoutEventual := by
  rwa [withoutEventual_eq_self (isEventual_of_plain (h.plain hty))]

omit h in
theorem mkEventual (hty : property ty.withoutEventual) :
    property ty.mkEventual.withoutEventual := by
  cases ty <;> exact hty

end Hereditary

theorem plain_mkOptional {ty : Ty} (h : ty.plain = true) : ty.mkOptional.plain = true :=
  hereditary_plain.mkOptional h

theorem plain_join {left right : Ty} (hleft : left.plain = true) (hright : right.plain = true) :
    (left.join right).plain = true :=
  hereditary_plain.join hleft hright

theorem Hereditary.join_withoutEventual {property : Ty → Prop} (h : Hereditary property)
    {left right : Ty} (hleft : property left.withoutEventual)
    (hright : property right.withoutEventual) : property (left.join right).withoutEventual := by
  refine join_induction (motive := fun left right joined => property left.withoutEventual →
      property right.withoutEventual → property joined.withoutEventual)
    (fun _ hty _ => hty) (fun _ _ hty => hty) (fun _ hty _ => hty)
    (fun left right _ _ _ _ _ hl hr => ?_) (fun left right _ hmark hmark' hjoin _ _ hl hr => ?_)
    left right hleft hright
  · exact Hereditary.mkEventual (h.withoutEventual (h.join hl hr))
  · rw [withoutEventual_eq_self hmark] at hl
    rw [withoutEventual_eq_self hmark'] at hr
    exact hjoin ▸ h.withoutEventual (h.join hl hr)

theorem join_ne_eventual_error {left right : Ty} (hleft : left.flat = true)
    (hright : right.flat = true) (hl : left ≠ .eventual .error) (hr : right ≠ .eventual .error) :
    left.join right ≠ .eventual .error := by
  refine join_induction (motive := fun left right joined => left.flat = true → right.flat = true →
      left ≠ .eventual .error → right ≠ .eventual .error → joined ≠ .eventual .error)
    (fun _ _ _ hty _ => hty) (fun _ _ _ _ hty => hty) (fun _ _ _ hty _ => hty)
    (fun left right _ _ _ _ _ hleft hright _ _ => ?_)
    (fun left right _ hmark hmark' hjoin _ _ hleft hright _ _ => ?_) left right hleft hright hl hr
  · exact mkEventual_ne_eventual_error (isEventual_of_plain (plain_join hleft hright))
  · intro heq
    have hplain := plain_join (plain_of_flat hleft hmark) (plain_of_flat hright hmark')
    rw [hjoin, heq] at hplain
    exact absurd hplain Bool.false_ne_true

theorem isEventual_of_join {left right : Ty} (hleft : left.flat = true) (hright : right.flat = true)
    (h : (left.join right).isEventual = true) :
    left.isEventual = true ∨ right.isEventual = true := by
  by_cases hl : left.isEventual = true
  · exact .inl hl
  · by_cases hr : right.isEventual = true
    · exact .inr hr
    · have hplain := plain_join (plain_of_flat hleft (by simpa using hl))
        (plain_of_flat hright (by simpa using hr))
      simp [isEventual_of_plain hplain] at h

mutual

theorem admits_mono {null : Bool} {fits fits' : Ty → Bool}
    (h : ∀ ty, fits ty = true → fits' ty = true) :
    (slot : Ty) → admits null fits slot = true → admits null fits' slot = true
  | .any, _ | .error, _ => by rw [admits]
  | .eventual inner, hslot => by
    rw [admits] at hslot ⊢
    exact admits_mono h inner hslot
  | .optional inner, hslot => by
    rw [admits, Bool.or_eq_true] at hslot ⊢
    exact hslot.imp id (admits_mono h inner)
  | .union members, hslot => by
    rw [admits] at hslot ⊢
    exact admitsSome_mono h members hslot
  | .string, hslot | .number, hslot | .int, hslot | .bool, hslot | .null, hslot | .asset, hslot
  | .archive, hslot | .list _, hslot | .map _, hslot | .object _, hslot | .resource _, hslot => by
    simp only [admits] at hslot ⊢
    exact h _ hslot

theorem admitsSome_mono {null : Bool} {fits fits' : Ty → Bool}
    (h : ∀ ty, fits ty = true → fits' ty = true) :
    (members : List Ty) → admitsSome null fits members = true →
      admitsSome null fits' members = true
  | [], hslot => absurd hslot Bool.false_ne_true
  | member :: rest, hslot => by
    rw [admitsSome, Bool.or_eq_true] at hslot ⊢
    exact hslot.imp (admits_mono h member) (admitsSome_mono h rest)

end

@[simp] theorem assignable_mkOptional (ty slot : Ty) :
    ty.mkOptional.assignable slot = ty.assignable slot := by
  cases ty <;> simp [mkOptional, assignable]

@[simp] theorem assignable_eventual (ty slot : Ty) :
    (Ty.eventual ty).assignable slot = ty.assignable slot := by
  rw [assignable]

@[simp] theorem assignable_withoutEventual (ty slot : Ty) :
    ty.withoutEventual.assignable slot = ty.assignable slot := by
  cases ty <;> simp [withoutEventual]

theorem assignable_mkEventual (ty slot : Ty) :
    ty.mkEventual.assignable slot = ty.assignable slot := by
  rcases ty.mkEventual_cases with h | h <;> simp [h]

@[simp] theorem assignable_resolved (ty slot : Ty) :
    ty.resolved.assignable slot = ty.assignable slot := by
  induction ty using resolved.induct with
  | case1 inner ih => rw [resolved, ih, assignable_eventual]
  | case2 inner ih =>
    rw [resolved, ih]
    simp only [assignable]
  | case3 ty hnotEventual hnotOptional =>
    rw [resolved]
    · exact hnotEventual
    · exact hnotOptional

theorem assignable_list_mono {element joined : Ty}
    (h : ∀ slot, element.assignable slot = true → joined.assignable slot = true) (slot : Ty)
    (hslot : (Ty.list element).assignable slot = true) :
    (Ty.list joined).assignable slot = true := by
  simp only [assignable] at hslot ⊢
  refine admits_mono (fun wanted hwanted => ?_) slot hslot
  cases wanted with
  | list wanted => exact h wanted hwanted
  | _ => exact absurd hwanted Bool.false_ne_true

theorem assignable_map_mono {values joined : Ty}
    (h : ∀ slot, values.assignable slot = true → joined.assignable slot = true) (slot : Ty)
    (hslot : (Ty.map values).assignable slot = true) :
    (Ty.map joined).assignable slot = true := by
  simp only [assignable] at hslot ⊢
  refine admits_mono (fun wanted hwanted => ?_) slot hslot
  cases wanted with
  | map wanted => exact h wanted hwanted
  | _ => exact absurd hwanted Bool.false_ne_true

private theorem join_assignable_of_side (left right : Ty) :
    (∀ slot, left.assignable slot = true → (left.join right).assignable slot = true) ∨
      ∀ slot, right.assignable slot = true → (left.join right).assignable slot = true := by
  refine join_induction (motive := fun left right joined =>
      (∀ slot, left.assignable slot = true → joined.assignable slot = true) ∨
        ∀ slot, right.assignable slot = true → joined.assignable slot = true)
    (fun ty => .inl fun _ => id) (fun ty => .inr fun _ => id) (fun ty => .inl fun _ => id)
    (fun left right _ _ _ _ hjoined => ?_) (fun left right _ _ _ _ _ hinner => ?_) left right
  · simpa only [assignable_mkEventual, assignable_withoutEventual] using hjoined
  -- Apart from `any`, which fits every slot, a join is one of its sides but for null and contents.
  · rcases joinApart_cases left right with hany | ⟨rfl, hjoin⟩ | ⟨rfl, hjoin⟩ | ⟨rfl, rfl, hjoin⟩ |
      ⟨rfl, rfl, hjoin⟩ | ⟨l, r, rfl, rfl, hjoin⟩ | ⟨l, r, rfl, rfl, hjoin⟩
    · exact .inl fun slot _ => by rw [hany, assignable]
    · exact .inr fun slot h => by rwa [hjoin, assignable_mkOptional]
    · exact .inl fun slot h => by rwa [hjoin, assignable_mkOptional]
    · exact .inr fun slot h => by rwa [hjoin]
    · exact .inl fun slot h => by rwa [hjoin]
    · rw [hjoin]
      exact (hinner l r (.inl ⟨rfl, rfl⟩)).imp assignable_list_mono assignable_list_mono
    · rw [hjoin]
      exact (hinner l r (.inr ⟨rfl, rfl⟩)).imp assignable_map_mono assignable_map_mono

theorem assignable_join {left right slot : Ty} (hleft : left.assignable slot = true)
    (hright : right.assignable slot = true) : (left.join right).assignable slot = true :=
  (join_assignable_of_side left right).elim (· slot hleft) (· slot hright)

end Ty

namespace Binding

section

variable {property : Ty → Prop} (h : Ty.Hereditary property)

include h

theorem hereditary_elementTy {collection : Ty} (hcollection : property collection.withoutEventual) :
    property ((elementTy collection).getD .error) := by
  cases helement : elementTy collection with
  | none => exact h.error
  | some element => exact h.elementTy hcollection helement

theorem hereditary_eventualIf {ty : Ty} (eventual : Bool) (hty : property ty.withoutEventual) :
    property (eventualIf eventual ty).withoutEventual := by
  cases eventual with
  | false => exact hty
  | true =>
    rw [eventualIf, if_pos rfl]
    exact Ty.Hereditary.mkEventual (h.withoutEventual hty)

end

theorem isEventual_of_eventualIf {ty : Ty} {eventual : Bool} (hty : ty.plain = true)
    (h : (eventualIf eventual ty).isEventual = true) : eventual = true := by
  cases eventual with
  | false => exact (Ty.isEventual_of_plain hty).symm.trans h
  | true => rfl

end Binding

end Provision
