import Provision.Proofs.Ty.Order

/-!
# Assignability to the type itself

A type is one of the cases of another when it is reached by peeling wrappers and choosing members
of unions. A slot takes a value of each of its cases, unless the case is a union that no value has.
Hence a type is assignable to itself exactly when it is populated, and an outer `eventual` plays no
part on either side.
-/

namespace Provision.Ty

mutual

def noEmptyUnion : Ty → Bool
  | .list element => noEmptyUnion element
  | .map values => noEmptyUnion values
  | .union members => !members.isEmpty && noEmptyUnions members
  | .optional inner => noEmptyUnion inner
  | .eventual inner => noEmptyUnion inner
  | _ => true

def noEmptyUnions : List Ty → Bool
  | [] => true
  | member :: rest => noEmptyUnion member && noEmptyUnions rest

end

mutual

/-- Whether every union on the way to one of the innermost types has a member to choose. -/
def populated : Ty → Bool
  | .list element => populated element
  | .map values => populated values
  | .union members => populatedSome members
  | .optional inner => populated inner
  | .eventual inner => populated inner
  | _ => true

def populatedSome : List Ty → Bool
  | [] => false
  | member :: rest => populated member || populatedSome rest

end

mutual

theorem populated_of_noEmptyUnion : (ty : Ty) → ty.noEmptyUnion = true → ty.populated = true
  | .list element, h | .map element, h | .optional element, h | .eventual element, h => by
    simp only [noEmptyUnion, populated] at h ⊢
    exact populated_of_noEmptyUnion element h
  | .union members, h => by
    rw [noEmptyUnion, Bool.and_eq_true, Bool.not_eq_true', List.isEmpty_eq_false_iff] at h
    rw [populated]
    exact populatedSome_of_noEmptyUnions members h.1 h.2
  | .string, _ | .number, _ | .int, _ | .bool, _ | .null, _ | .any, _ | .asset, _ | .archive, _
  | .object _, _ | .resource _, _ | .error, _ => by simp only [populated]

private theorem populatedSome_of_noEmptyUnions :
    (members : List Ty) → members ≠ [] → noEmptyUnions members = true →
      populatedSome members = true
  | [], hsome, _ => absurd rfl hsome
  | member :: rest, _, h => by
    rw [noEmptyUnions, Bool.and_eq_true] at h
    rw [populatedSome, populated_of_noEmptyUnion member h.1, Bool.true_or]

end

variable {members : List Ty}

theorem populatedSome_of_mem {member : Ty} (hmem : member ∈ members) (h : member.populated = true) :
    populatedSome members = true := by
  induction members with
  | nil => simp at hmem
  | cons first rest ih =>
    rw [populatedSome, Bool.or_eq_true]
    rcases List.mem_cons.mp hmem with rfl | hrest
    · exact .inl h
    · exact .inr (ih hrest)

/-- The first type is reached from the second by peeling wrappers and choosing union members. -/
inductive CaseOf (part : Ty) : Ty → Prop
  | self : CaseOf part part
  | eventual {inner : Ty} : CaseOf part inner → CaseOf part (.eventual inner)
  | optional {inner : Ty} : CaseOf part inner → CaseOf part (.optional inner)
  | member {member : Ty} {members : List Ty} : member ∈ members → CaseOf part member →
      CaseOf part (.union members)

variable {part whole : Ty}

namespace CaseOf

theorem trans {middle : Ty} (h : CaseOf part middle) (h' : CaseOf middle whole) :
    CaseOf part whole := by
  induction h' with
  | self => exact h
  | eventual _ ih => exact .eventual ih
  | optional _ ih => exact .optional ih
  | member hmem _ ih => exact .member hmem ih

theorem mkOptional (ty : Ty) : CaseOf ty ty.mkOptional := by
  cases ty <;> first | exact .self | exact .optional .self

theorem union_resolved (h : CaseOf (.union members) whole) :
    CaseOf (.union members) whole.resolved := by
  induction h with
  | self => exact .self
  | eventual _ ih | optional _ ih =>
    rw [resolved]
    exact ih
  | member hmem hcase _ => exact .member hmem hcase

theorem populated (h : CaseOf part whole) (hpart : part.populated = true) :
    whole.populated = true := by
  induction h with
  | self => exact hpart
  | eventual _ ih | optional _ ih =>
    rw [Ty.populated]
    exact ih
  | member hmem _ ih =>
    rw [Ty.populated]
    exact populatedSome_of_mem hmem ih

end CaseOf

theorem populated_resolved (ty : Ty) : ty.resolved.populated = ty.populated := by
  induction ty using resolved.induct with
  | case1 inner ih | case2 inner ih => rw [resolved, ih, populated]
  | case3 ty notEventual notOptional =>
    rw [resolved]
    · exact notEventual
    · exact notOptional

theorem populated_withoutEventual (ty : Ty) : ty.withoutEventual.populated = ty.populated := by
  rw [← ty.withoutEventual.populated_resolved, resolved_withoutEventual, populated_resolved]

def takes (fits : Ty → Bool) : Ty → Bool
  | .any | .error => true
  | .eventual _ | .optional _ | .union _ => false
  | slot => fits slot

variable {fits : Ty → Bool}

theorem admitsSome_of_mem {null : Bool} {member : Ty} (hmem : member ∈ members)
    (h : admits null fits member = true) : admitsSome null fits members = true := by
  induction members with
  | nil => simp at hmem
  | cons first rest ih =>
    rw [admitsSome, Bool.or_eq_true]
    rcases List.mem_cons.mp hmem with rfl | hrest
    · exact .inl h
    · exact .inr (ih hrest)

theorem CaseOf.admits {null : Bool} {slot : Ty} (h : CaseOf part slot)
    (hpart : takes fits part = true) : admits null fits slot = true := by
  induction h with
  | self => cases part <;> simp_all [takes, Ty.admits]
  | eventual _ ih => rw [Ty.admits, ih]
  | optional _ ih => rw [Ty.admits, ih, Bool.or_true]
  | member hmem _ ih =>
    rw [Ty.admits]
    exact admitsSome_of_mem hmem ih

mutual

theorem exists_case_of_admits :
    (slot : Ty) → admits false fits slot = true → ∃ part, CaseOf part slot ∧ takes fits part = true
  | .eventual inner, h => by
    rw [admits] at h
    obtain ⟨part, hcase, htakes⟩ := exists_case_of_admits inner h
    exact ⟨part, .eventual hcase, htakes⟩
  | .optional inner, h => by
    rw [admits, Bool.false_or] at h
    obtain ⟨part, hcase, htakes⟩ := exists_case_of_admits inner h
    exact ⟨part, .optional hcase, htakes⟩
  | .union members, h => by
    rw [admits] at h
    obtain ⟨member, hmem, part, hcase, htakes⟩ := exists_case_of_admitsSome members h
    exact ⟨part, .member hmem hcase, htakes⟩
  | .any, _ => ⟨.any, .self, rfl⟩
  | .error, _ => ⟨.error, .self, rfl⟩
  | .string, h | .number, h | .int, h | .bool, h | .null, h | .asset, h | .archive, h | .list _, h
  | .map _, h | .object _, h | .resource _, h => ⟨_, .self, by simpa only [takes, admits] using h⟩

theorem exists_case_of_admitsSome :
    (members : List Ty) → admitsSome false fits members = true →
      ∃ member ∈ members, ∃ part, CaseOf part member ∧ takes fits part = true
  | [], h => absurd h Bool.false_ne_true
  | member :: rest, h => by
    rw [admitsSome, Bool.or_eq_true] at h
    rcases h with h | h
    · exact ⟨member, List.mem_cons_self, exists_case_of_admits member h⟩
    · obtain ⟨other, hmem, hother⟩ := exists_case_of_admitsSome rest h
      exact ⟨other, List.mem_cons_of_mem _ hmem, hother⟩

end

theorem assignable_union {slot : Ty} :
    (Ty.union members).assignable slot = true ↔
      slot.resolved = .any ∨ slot.resolved = .error ∨
        assignableSome members slot.resolved = true := by
  rw [assignable]
  split <;> simp_all

mutual

theorem assignable_of_caseOf :
    (part : Ty) → part.populated = true → ∀ {slot : Ty}, CaseOf part slot →
      part.assignable slot = true
  | .any, _, _, _ | .error, _, _, _ => by rw [assignable]
  | .eventual inner, hpart, _, hcase => by
    rw [populated] at hpart
    rw [assignable]
    exact assignable_of_caseOf inner hpart (.trans (.eventual .self) hcase)
  | .optional inner, hpart, _, hcase => by
    rw [populated] at hpart
    rw [assignable]
    exact assignable_of_caseOf inner hpart (.trans (.optional .self) hcase)
  | .union members, hpart, _, hcase => by
    -- A union is compared with the slot without its wrappers, of which it is still a case.
    rw [populated] at hpart
    exact assignable_union.mpr (.inr (.inr (assignableSome_of_caseOf members hpart
      fun member hmem => .trans (.member hmem .self) hcase.union_resolved)))
  | .list element, hpart, _, hcase => by
    rw [populated] at hpart
    rw [assignable]
    exact hcase.admits (assignable_of_caseOf element hpart .self)
  | .map values, hpart, _, hcase => by
    rw [populated] at hpart
    rw [assignable]
    exact hcase.admits (assignable_of_caseOf values hpart .self)
  | .string, _, _, hcase | .number, _, _, hcase | .int, _, _, hcase | .bool, _, _, hcase
  | .null, _, _, hcase | .asset, _, _, hcase | .archive, _, _, hcase | .object _, _, _, hcase
  | .resource _, _, _, hcase => by
    simp only [assignable]
    exact hcase.admits (by simp [takes])

theorem assignableSome_of_caseOf :
    (members : List Ty) → populatedSome members = true → ∀ {slot : Ty},
      (∀ member ∈ members, CaseOf member slot) → assignableSome members slot = true
  | [], h, _, _ => absurd h Bool.false_ne_true
  | member :: rest, h, _, hcases => by
    rw [populatedSome, Bool.or_eq_true] at h
    rw [assignableSome, Bool.or_eq_true]
    rw [List.forall_mem_cons] at hcases
    exact h.imp (assignable_of_caseOf member · hcases.1) (assignableSome_of_caseOf rest · hcases.2)

end

mutual

theorem populated_of_assignable :
    (ty : Ty) → ∀ {slot : Ty}, ty.assignable slot = true →
      ty.populated = true ∨ slot.populated = true
  | .eventual inner, _, h | .optional inner, _, h => by
    simp only [assignable, populated] at h ⊢
    exact populated_of_assignable inner h
  | .union members, slot, h => by
    rw [populated, ← slot.populated_resolved]
    rcases assignable_union.mp h with hany | herror | hsome
    · exact .inr (by rw [hany]; rfl)
    · exact .inr (by rw [herror]; rfl)
    · exact populated_of_assignableSome members hsome
  | .list element, _, h => by
    rw [assignable] at h
    obtain ⟨part, hcase, htakes⟩ := exists_case_of_admits _ h
    cases part with
    | list wanted =>
      rw [populated]
      exact (populated_of_assignable element htakes).imp id fun hwanted =>
        hcase.populated (by rwa [populated])
    | any | error => exact .inr (hcase.populated rfl)
    | _ => simp [takes] at htakes
  | .map values, _, h => by
    rw [assignable] at h
    obtain ⟨part, hcase, htakes⟩ := exists_case_of_admits _ h
    cases part with
    | map wanted =>
      rw [populated]
      exact (populated_of_assignable values htakes).imp id fun hwanted =>
        hcase.populated (by rwa [populated])
    | any | error => exact .inr (hcase.populated rfl)
    | _ => simp [takes] at htakes
  | .string, _, _ | .number, _, _ | .int, _, _ | .bool, _, _ | .null, _, _ | .any, _, _
  | .asset, _, _ | .archive, _, _ | .object _, _, _ | .resource _, _, _ | .error, _, _ =>
    .inl (by simp only [populated])

theorem populated_of_assignableSome :
    (members : List Ty) → ∀ {slot : Ty}, assignableSome members slot = true →
      populatedSome members = true ∨ slot.populated = true
  | [], _, h => absurd h Bool.false_ne_true
  | member :: rest, _, h => by
    rw [assignableSome, Bool.or_eq_true] at h
    rw [populatedSome, Bool.or_eq_true]
    rcases h with h | h
    · exact (populated_of_assignable member h).imp .inl id
    · exact (populated_of_assignableSome rest h).imp .inr id

end

theorem assignable_self_eq (ty : Ty) : ty.assignable ty = ty.populated := by
  rw [Bool.eq_iff_iff]
  exact ⟨fun h => (populated_of_assignable ty h).elim id id,
    fun h => assignable_of_caseOf ty h .self⟩

@[simp] theorem assignable_to_eventual (ty slot : Ty) :
    ty.assignable (.eventual slot) = ty.assignable slot := by
  induction ty using resolved.induct with
  | case1 inner ih | case2 inner ih =>
    simp only [assignable]
    exact ih
  | case3 ty notEventual notOptional =>
    cases ty with
    | eventual inner => exact absurd rfl (notEventual inner)
    | optional inner => exact absurd rfl (notOptional inner)
    | _ => simp only [assignable, admits, resolved]

/-- Every type without an empty union is assignable to itself; a type is so exactly when it is
populated. An outer `eventual` plays no part, neither of the type nor of the slot. -/
theorem assignable_reflexive_and_transparent :
    (∀ ty : Ty, ty.noEmptyUnion = true → ty.assignable ty = true) ∧
      (∀ ty : Ty, ty.assignable ty = ty.populated) ∧
      ∀ ty slot : Ty, (Ty.eventual ty).assignable slot = ty.assignable slot ∧
        ty.assignable (.eventual slot) = ty.assignable slot :=
  ⟨fun ty h => (assignable_self_eq ty).trans (populated_of_noEmptyUnion ty h), assignable_self_eq,
    fun ty slot => ⟨assignable_eventual ty slot, assignable_to_eventual ty slot⟩⟩

theorem assignable_reflexive_nested :
    let ty : Ty := .list (.map (.union [.string, .eventual (.optional .number)]))
    ty.noEmptyUnion = true ∧ ty.assignable ty = true :=
  ⟨by decide, assignable_reflexive_and_transparent.1 _ (by decide)⟩

example : (Ty.union []).assignable (.union []) = false := by decide

end Provision.Ty
