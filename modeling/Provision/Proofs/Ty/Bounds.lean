import Provision.Proofs.Ty.Assign

/-!
# Joins as bounds

`join` reads its branches one after the other. The equations here give it in a form that treats
both sides alike, from which it is symmetric, is taken wherever both branches are, and takes both
branches itself. Null is the one type that changes what it is joined with: `joinApart` lists what
two different types without marks have in common. Assignability and joins also go by rules for pairs
of types, of which the first that applies counts.
-/

namespace Provision.Ty

private theorem joinApart_comm {left right : Ty} (hdiffer : left ≠ right)
    (h : ∀ l r, left = .list l ∧ right = .list r ∨ left = .map l ∧ right = .map r →
      l.join r = r.join l) : joinApart left right = joinApart right left := by
  cases left <;> cases right <;> first
    | rfl
    | exact absurd rfl hdiffer
    | exact congrArg Ty.list (h _ _ (.inl ⟨rfl, rfl⟩))
    | exact congrArg Ty.map (h _ _ (.inr ⟨rfl, rfl⟩))

theorem join_comm (left right : Ty) : left.join right = right.join left := by
  refine join_induction (motive := fun left right joined => joined = right.join left)
    (fun ty => ty.join_self.symm) (fun ty => ty.join_error.symm) (fun ty => ty.error_join.symm)
    (fun left right hdiffer hleft hright hmark hjoined => ?_)
    (fun left right hdiffer _ _ _ hjoin hinner => ?_) left right
  · rcases hmark with hmark | hmark <;> obtain ⟨inner, rfl⟩ := exists_eventual hmark
    · rw [hjoined, join_mark_right hdiffer.symm hright, withoutEventual]
    · rw [hjoined, join_mark_left hdiffer.symm hleft, withoutEventual]
  · rw [hjoin]
    exact joinApart_comm hdiffer hinner

private theorem assignable_to_mkEventual (ty slot : Ty) :
    ty.assignable slot.mkEventual = ty.assignable slot := by
  rcases slot.mkEventual_cases with h | h <;> simp [h]

theorem assignable_to_open {slot : Ty} (h : slot = .any ∨ slot = .error) (ty : Ty) :
    ty.assignable slot = true := by
  induction ty using resolved.induct with
  | case1 inner ih | case2 inner ih => rwa [assignable]
  | case3 ty notEventual notOptional =>
    cases ty with
    | eventual inner => exact absurd rfl (notEventual inner)
    | optional inner => exact absurd rfl (notOptional inner)
    | _ => rcases h with rfl | rfl <;> simp only [assignable, admits, resolved]

theorem assignable_to_any (ty : Ty) : ty.assignable .any = true := assignable_to_open (.inl rfl) ty

private theorem null_assignable_mkOptional (ty : Ty) : Ty.null.assignable ty.mkOptional = true := by
  cases ty <;> simp [mkOptional, assignable, admits]

theorem assignable_join_left {left : Ty} (right : Ty) (hleft : left.populated = true) :
    left.assignable (left.join right) = true := by
  refine join_induction (motive := fun left _ joined => left.populated = true →
      left.assignable joined = true)
    (fun ty h => by rwa [assignable_self_eq]) (fun ty _ => by rw [assignable])
    (fun ty h => by rwa [assignable_self_eq])
    (fun left right _ _ _ _ hjoined h => ?_) (fun left right _ _ _ _ _ hinner h => ?_)
    left right hleft
  · rw [← assignable_withoutEventual, assignable_to_mkEventual]
    rw [← populated_withoutEventual] at h
    exact hjoined h
  · rcases joinApart_cases left right with hany | ⟨rfl, hjoin⟩ | ⟨rfl, hjoin⟩ | ⟨rfl, rfl, hjoin⟩ |
      ⟨rfl, rfl, hjoin⟩ | ⟨l, r, rfl, rfl, hjoin⟩ | ⟨l, r, rfl, rfl, hjoin⟩
    · rw [hany, assignable_to_any]
    · rw [hjoin, null_assignable_mkOptional]
    · rw [hjoin]
      exact assignable_of_caseOf left h (.mkOptional left)
    · rw [hjoin]
      rfl
    · rw [hjoin]
      rfl
    · rw [hjoin]
      exact hinner l r (.inl ⟨rfl, rfl⟩) h
    · rw [hjoin]
      exact hinner l r (.inr ⟨rfl, rfl⟩) h

/-- The join of two branches does not depend on their order. A slot that takes both branches takes
the join, and the join takes both branches unless an empty union stands in one. -/
theorem join_sound_for_branches :
    (∀ left right : Ty, left.join right = right.join left) ∧
      (∀ left right slot : Ty, left.assignable slot = true → right.assignable slot = true →
        (left.join right).assignable slot = true) ∧
      ∀ left right : Ty, left.noEmptyUnion = true → right.noEmptyUnion = true →
        left.assignable (left.join right) = true ∧ right.assignable (left.join right) = true := by
  refine ⟨join_comm, fun left right slot hleft hright => ?_,
    fun left right hleft hright => ⟨?_, ?_⟩⟩
  · exact assignable_join hleft hright
  · exact assignable_join_left right (populated_of_noEmptyUnion left hleft)
  · rw [join_comm]
    exact assignable_join_left left (populated_of_noEmptyUnion right hright)

theorem join_sound_for_branches_lists :
    let left : Ty := .eventual (.list .int)
    let right : Ty := .list .null
    let slot : Ty := .list (.optional .number)
    left.join right = right.join left ∧ (left.join right).assignable slot = true ∧
      left.assignable (left.join right) = true ∧ right.assignable (left.join right) = true :=
  ⟨join_sound_for_branches.1 _ _,
    join_sound_for_branches.2.1 _ _ (.list (.optional .number)) (by decide) (by decide),
    join_sound_for_branches.2.2 _ _ (by decide) (by decide)⟩

/-- The rules of assignability for pairs of types; `recurse` decides what they lead to. -/
def assignableBy (recurse : Ty → Ty → Bool) : Ty → Ty → Bool
  | _, .any | .any, _ | .error, _ | _, .error => true
  | .eventual inner, slot => recurse inner slot
  | source, .eventual inner => recurse source inner
  | .null, .optional _ => true
  | .optional inner, slot => recurse inner slot
  | source, .optional inner => recurse source inner
  | .union members, slot => members.any (recurse · slot)
  | source, .union members => members.any (recurse source)
  | .int, .number => true
  | .archive, .asset => true
  | .list source, .list slot | .map source, .map slot => recurse source slot
  | .object source, .object slot => source == slot
  | .resource source, .resource slot => slot.isEmpty || source == slot
  | source, slot => source == slot

private theorem assignableSome_eq_any (members : List Ty) (slot : Ty) :
    assignableSome members slot = members.any (assignable · slot) := by
  induction members with
  | nil => rfl
  | cons member rest ih => rw [assignableSome, ih, List.any_cons]

private theorem admitsSome_eq_any (null : Bool) (fits : Ty → Bool) (members : List Ty) :
    admitsSome null fits members = members.any (admits null fits) := by
  induction members with
  | nil => rfl
  | cons member rest ih => rw [admitsSome, ih, List.any_cons]

private theorem object_beq (first second : String) :
    (object first == object second) = (second == first) := by
  rw [Bool.eq_iff_iff, beq_iff_eq, beq_iff_eq, object.injEq]
  exact eq_comm

theorem assignable_eq (source slot : Ty) :
    assignable source slot = assignableBy assignable source slot := by
  cases source <;> cases slot <;> first
    | rfl
    | simp [assignable, admits, assignableBy, resolved, assignableSome_eq_any, admitsSome_eq_any,
        assignable_to_any, assignable_to_open (.inr rfl), object_beq]

private theorem isEventual_eq_false {ty : Ty} (h : ∀ inner, ty = .eventual inner → False) :
    ty.isEventual = false := by
  rw [← Bool.not_eq_true]
  intro hmark
  obtain ⟨inner, rfl⟩ := exists_eventual hmark
  exact h inner rfl

/-- The rules of joins for pairs of types. -/
def joinBy (recurse : Ty → Ty → Ty) (left right : Ty) : Ty :=
  if left == right then left else
    match left, right with
    | .error, other | other, .error => other
    | .eventual left, .eventual right => (recurse left right).mkEventual
    | .eventual left, other | other, .eventual left => (recurse left other).mkEventual
    | .null, other | other, .null => other.mkOptional
    | .int, .number | .number, .int => .number
    | .list left, .list right => .list (recurse left right)
    | .map left, .map right => .map (recurse left right)
    | _, _ => .any

theorem join_eq (left right : Ty) : left.join right = joinBy join left right := by
  unfold joinBy
  split
  · next hsame => rw [eq_of_beq hsame, join_self]
  · next hdiffer =>
    have hdiffer : left ≠ right := by simpa using hdiffer
    split
    · exact error_join _
    · exact join_error _
    · exact join_mark_left hdiffer (by simp)
    · next herror hplain =>
      rw [join_mark_left hdiffer herror, withoutEventual]
      exact hplain
    · next herror hplain _ =>
      rw [join_mark_right hdiffer herror, withoutEventual, join_comm]
      exact hplain
    -- The rest are types without marks.
    · next herror hplain =>
      rw [join]
      exact joinEventual_of_unmarked hdiffer herror (isEventual_eq_false hplain)
    · next herror hplain _ _ =>
      rw [join_comm, join]
      exact joinEventual_of_unmarked hdiffer.symm herror (isEventual_eq_false hplain)
    · rfl
    · rfl
    · rw [join_eq_joinApart hdiffer (by simp) rfl (by simp) rfl, joinApart]
    · rw [join_eq_joinApart hdiffer (by simp) rfl (by simp) rfl, joinApart]
    · next herror hplain hnull herror' hplain' hnull' _ hint hnumber hlist hmap =>
      rw [join_eq_joinApart hdiffer herror (isEventual_eq_false hplain) herror'
        (isEventual_eq_false hplain'), joinApart]
      all_goals assumption

end Provision.Ty
