import Provision.Proofs.Ty.Join

/-!
# Types under a join

A type is under another, wrappers left aside, when it has a part of what the other holds: null is
under every type and everything is under `any`. Each side of a join is under the join, so the type
of each member of a list is under the element type of the list.
-/

namespace Provision

namespace Ty

@[simp] theorem resolved_mkEventual (ty : Ty) : ty.mkEventual.resolved = ty.resolved := by
  cases ty <;> rfl

@[simp] theorem resolved_mkOptional (ty : Ty) : ty.mkOptional.resolved = ty.resolved := by
  cases ty <;> rfl

@[simp] theorem resolved_withoutEventual (ty : Ty) : ty.withoutEventual.resolved = ty.resolved := by
  cases ty <;> rfl

theorem resolved_ne (ty inner : Ty) :
    ty.resolved ≠ .eventual inner ∧ ty.resolved ≠ .optional inner := by
  induction ty using resolved.induct with
  | case1 ty ih => rwa [resolved]
  | case2 ty ih => rwa [resolved]
  | case3 ty notEventual notOptional =>
    rw [resolved]
    · exact ⟨notEventual inner, notOptional inner⟩
    · exact notEventual
    · exact notOptional

inductive Below : Ty → Ty → Prop
  | same (ty : Ty) : Below ty ty
  | null (upper : Ty) : Below .null upper
  | error (upper : Ty) : Below .error upper
  | any (lower : Ty) : Below lower .any
  | int : Below .int .number
  | list {element wider : Ty} (h : Below element.resolved wider.resolved) :
      Below (.list element) (.list wider)
  | map {values wider : Ty} (h : Below values.resolved wider.resolved) :
      Below (.map values) (.map wider)

def Under (lower upper : Ty) : Prop := Below lower.resolved upper.resolved

variable {lower middle upper : Ty}

theorem Below.trans (h : Below lower middle) (h' : Below middle upper) : Below lower upper := by
  induction h generalizing upper with
  | same => exact h'
  | null => exact .null upper
  | error => exact .error upper
  | any lower =>
    cases h' with
    | same | any => exact .any lower
  | int =>
    cases h' with
    | same => exact .int
    | any => exact .any .int
  | list h ih =>
    cases h' with
    | same => exact .list h
    | any => exact .any _
    | list h' => exact .list (ih h')
  | map h ih =>
    cases h' with
    | same => exact .map h
    | any => exact .any _
    | map h' => exact .map (ih h')

namespace Under

theorem congr_left (heq : lower.resolved = middle.resolved) (h : Under middle upper) :
    Under lower upper := by
  rwa [Under, heq]

theorem congr_right (heq : middle.resolved = upper.resolved) (h : Under lower middle) :
    Under lower upper := by
  rwa [Under, ← heq]

theorem trans (h : Under lower middle) (h' : Under middle upper) : Under lower upper :=
  Below.trans h h'

theorem list_inv {element : Ty} (h : Under lower upper) (hlower : lower.resolved = .list element) :
    upper.resolved = .any ∨ ∃ wider, upper.resolved = .list wider ∧ Under element wider := by
  rw [Under, hlower] at h
  generalize upper.resolved = resolved at h ⊢
  cases h with
  | same => exact .inr ⟨element, rfl, .same _⟩
  | any => exact .inl rfl
  | list h => exact .inr ⟨_, rfl, h⟩

theorem map_inv {values : Ty} (h : Under lower upper) (hlower : lower.resolved = .map values) :
    upper.resolved = .any ∨ ∃ wider, upper.resolved = .map wider ∧ Under values wider := by
  rw [Under, hlower] at h
  generalize upper.resolved = resolved at h ⊢
  cases h with
  | same => exact .inr ⟨values, rfl, .same _⟩
  | any => exact .inl rfl
  | map h => exact .inr ⟨_, rfl, h⟩

theorem object_inv {token : String} (h : Under lower upper)
    (hupper : upper.resolved = .object token) :
    lower.resolved = .object token ∨ lower.resolved = .null ∨ lower.resolved = .error := by
  rw [Under, hupper] at h
  generalize lower.resolved = resolved at h ⊢
  cases h with
  | same => exact .inl rfl
  | null => exact .inr (.inl rfl)
  | error => exact .inr (.inr rfl)

end Under

theorem under_join (left right : Ty) :
    Under left (left.join right) ∧ Under right (left.join right) := by
  refine join_induction
    (motive := fun left right joined => Under left joined ∧ Under right joined)
    (fun _ => ⟨.same _, .same _⟩) (fun _ => ⟨.error _, .same _⟩)
    (fun _ => ⟨.same _, .error _⟩) (fun left right _ _ _ _ hinner => ?_)
    (fun left right _ _ _ _ _ hinner => ?_) left right
  · exact ⟨(hinner.1.congr_right (by simp)).congr_left (by simp),
      (hinner.2.congr_right (by simp)).congr_left (by simp)⟩
  · rcases joinApart_cases left right with hjoin | ⟨rfl, hjoin⟩ | ⟨rfl, hjoin⟩ |
      ⟨rfl, rfl, hjoin⟩ | ⟨rfl, rfl, hjoin⟩ | ⟨l, r, rfl, rfl, hjoin⟩ | ⟨l, r, rfl, rfl, hjoin⟩ <;>
      rw [hjoin]
    · exact ⟨.any _, .any _⟩
    · exact ⟨.null _, Under.congr_right (by simp) (.same _)⟩
    · exact ⟨Under.congr_right (by simp) (.same _), .null _⟩
    · exact ⟨.int, .same _⟩
    · exact ⟨.same _, .int⟩
    · obtain ⟨hleft, hright⟩ := hinner l r (.inl ⟨rfl, rfl⟩)
      exact ⟨.list hleft, .list hright⟩
    · obtain ⟨hleft, hright⟩ := hinner l r (.inr ⟨rfl, rfl⟩)
      exact ⟨.map hleft, .map hright⟩

theorem admits_resolved (fits : Ty → Bool) (slot : Ty) :
    admits false fits slot = admits false fits slot.resolved := by
  induction slot using resolved.induct with
  | case1 inner ih => rw [resolved, admits, ih]
  | case2 inner ih => rw [resolved, admits, Bool.false_or, ih]
  | case3 slot notEventual notOptional =>
    rw [resolved]
    · exact notEventual
    · exact notOptional

theorem resolved_of_assignable {ty slot : Ty} {token : String}
    (hslot : slot.resolved = .object token) (h : ty.assignable slot = true) :
    ty.resolved = .object token ∨ ty.resolved = .any ∨ ty.resolved = .error ∨
      ty.resolved = .null ∨ ∃ members, ty.resolved = .union members := by
  induction ty using resolved.induct with
  | case1 inner ih =>
    rw [resolved]
    rw [assignable] at h
    exact ih h
  | case2 inner ih =>
    rw [resolved]
    rw [assignable] at h
    exact ih h
  | case3 ty notEventual notOptional =>
    rw [resolved]
    · cases ty with
      | eventual inner => exact absurd rfl (notEventual inner)
      | optional inner => exact absurd rfl (notOptional inner)
      | any | error | null | union => simp
      | object own =>
        rw [assignable, admits_resolved, hslot] at h
        have hsame : token = own := by simpa [admits] using h
        exact .inl (by rw [hsame])
      | _ =>
        simp only [assignable] at h
        rw [admits_resolved, hslot] at h
        simp [admits] at h
    · exact notEventual
    · exact notOptional

theorem map_assignable_cases {values slot : Ty} (h : (Ty.map values).assignable slot = true) :
    (∃ wanted, slot.resolved = .map wanted) ∨ slot.resolved = .any ∨ slot.resolved = .error ∨
      ∃ members, slot.resolved = .union members := by
  rw [assignable, admits_resolved] at h
  cases hslot : slot.resolved with
  | eventual inner => exact absurd hslot (slot.resolved_ne inner).1
  | optional inner => exact absurd hslot (slot.resolved_ne inner).2
  | map wanted => exact .inl ⟨wanted, rfl⟩
  | any | error | union => simp
  | _ =>
    rw [hslot] at h
    simp [admits] at h

end Ty

namespace Binding

theorem under_memberTy {exprs : List Bound.Expr} {expr : Bound.Expr} (h : expr ∈ exprs) :
    Ty.Under expr.ty ((memberTy exprs).getD .any) := by
  have hfold : ∀ (rest : List Ty) (first : Ty), Ty.Under first (rest.foldl Ty.join first) ∧
      ∀ ty ∈ rest, Ty.Under ty (rest.foldl Ty.join first) := by
    intro rest
    induction rest with
    | nil => exact fun first => ⟨.same _, by simp⟩
    | cons ty rest ih =>
      intro first
      obtain ⟨hjoined, hrest⟩ := ih (first.join ty)
      have hsides := Ty.under_join first ty
      exact ⟨hsides.1.trans hjoined, List.forall_mem_cons.mpr ⟨hsides.2.trans hjoined, hrest⟩⟩
  cases exprs with
  | nil => simp at h
  | cons first rest =>
    obtain ⟨hfirst, hrest⟩ := hfold (rest.map (·.ty.withoutEventual)) first.ty.withoutEventual
    rcases List.mem_cons.mp h with rfl | h
    · exact hfirst.congr_left (by simp)
    · exact (hrest _ (List.mem_map_of_mem h)).congr_left (by simp)

end Binding

end Provision
