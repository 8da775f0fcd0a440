import Provision.Binding.Expr

/-!
# Types without inner marks

A type is bare when it mentions neither `eventual` nor `error`, and tidy when it is bare under at
most one outer `eventual`. Schemas and settings have bare types, and every type that binding works
out from tidy ones is tidy again.
-/

namespace Provision

variable {ty left right : Ty}

namespace Ty

mutual

def bare : Ty → Bool
  | .list element => bare element
  | .map values => bare values
  | .union members => bareAll members
  | .optional inner => bare inner
  | .eventual _ => false
  | .error => false
  | _ => true

def bareAll : List Ty → Bool
  | [] => true
  | member :: rest => bare member && bareAll rest

end

def tidy (ty : Ty) : Bool := ty.withoutEventual.bare

/-! ## Wrappers -/

@[simp] theorem isEventual_of_bare (h : ty.bare = true) : ty.isEventual = false := by
  cases ty <;> first | rfl | exact absurd h Bool.false_ne_true

theorem exists_eventual (h : ty.isEventual = true) : ∃ inner, ty = .eventual inner := by
  cases ty <;> simp_all [isEventual]

theorem withoutEventual_eq_self (h : ty.isEventual = false) : ty.withoutEventual = ty := by
  cases ty <;> first | rfl | exact absurd h.symm Bool.false_ne_true

theorem mkEventual_of_bare (h : ty.bare = true) : ty.mkEventual = .eventual ty := by
  cases ty <;> first | rfl | exact absurd h Bool.false_ne_true

theorem tidy_of_bare (h : ty.bare = true) : ty.tidy = true := by
  rw [tidy, withoutEventual_eq_self (isEventual_of_bare h), h]

private theorem tidy_iff :
    ty.tidy = true ↔ ty.bare = true ∨ ∃ inner, ty = .eventual inner ∧ inner.bare = true := by
  cases ty <;> simp [tidy, withoutEventual, bare]

theorem tidy_mkEventual (h : ty.tidy = true) :
    ty.mkEventual.tidy = true ∧ ty.mkEventual.isEventual = true := by
  rcases tidy_iff.mp h with hbare | ⟨inner, rfl, hbare⟩
  · rw [mkEventual_of_bare hbare]
    exact ⟨hbare, rfl⟩
  · exact ⟨hbare, rfl⟩

/-! ## Joins -/

@[simp] theorem error_join (ty : Ty) : Ty.error.join ty = ty := by rw [join]

@[simp] theorem join_error (ty : Ty) : ty.join .error = ty := by
  cases ty <;> simp [join, joinEventual]

@[simp] theorem join_self (ty : Ty) : ty.join ty = ty := by
  cases ty <;> simp [join, joinEventual]

theorem join_mark_left (hdiffer : Ty.eventual left ≠ right) (herror : right ≠ .error) :
    (Ty.eventual left).join right = (left.join right.withoutEventual).mkEventual := by
  cases right <;> simp_all [join, withoutEventual]

theorem join_mark_right (hdiffer : left ≠ .eventual right) (herror : left ≠ .error) :
    left.join (.eventual right) = (left.withoutEventual.join right).mkEventual := by
  cases left <;> simp_all [join, joinEventual, withoutEventual]

/-! ## Types without marks -/

/-- The join of two different types, neither of them eventual or an error. -/
def joinApart : Ty → Ty → Ty
  | .null, right => right.mkOptional
  | left, .null => left.mkOptional
  | .int, .number | .number, .int => .number
  | .list left, .list right => .list (left.join right)
  | .map left, .map right => .map (left.join right)
  | _, _ => .any

theorem joinEventual_of_unmarked {plain : Ty → Ty} (hdiffer : left ≠ right)
    (herror : right ≠ .error) (hmark : right.isEventual = false) :
    joinEventual left plain right = plain right := by
  have hdiffer : ¬ (left == right) = true := by simpa using hdiffer
  cases right <;> simp_all [joinEventual, isEventual]

theorem join_eq_joinApart (hdiffer : left ≠ right) (hleft : left ≠ .error)
    (hmark : left.isEventual = false) (hright : right ≠ .error)
    (hmark' : right.isEventual = false) : left.join right = joinApart left right := by
  have hplain (plain : Ty → Ty) : joinEventual left plain right = plain right :=
    joinEventual_of_unmarked hdiffer hright hmark'
  cases left with
  | error => exact absurd rfl hleft
  | eventual inner => exact absurd hmark (by simp [isEventual])
  | null => rw [join, hplain, joinApart]
  | _ =>
    simp only [join, hplain]
    cases right <;> rfl

theorem joinApart_cases (left right : Ty) :
    joinApart left right = .any ∨
      (left = .null ∧ joinApart left right = right.mkOptional) ∨
      (right = .null ∧ joinApart left right = left.mkOptional) ∨
      (left = .int ∧ right = .number ∧ joinApart left right = .number) ∨
      (left = .number ∧ right = .int ∧ joinApart left right = .number) ∨
      (∃ l r, left = .list l ∧ right = .list r ∧ joinApart left right = .list (l.join r)) ∨
      ∃ l r, left = .map l ∧ right = .map r ∧ joinApart left right = .map (l.join r) := by
  cases left with
  | null => exact .inr (.inl ⟨rfl, by rw [joinApart]⟩)
  | _ => cases right <;> simp [joinApart]

theorem sizeOf_withoutEventual_le (ty : Ty) : sizeOf ty.withoutEventual ≤ sizeOf ty := by
  cases ty <;> simp [withoutEventual]

/-- To show something of every join it is enough to show it of a type with itself and with `error`,
across a mark on either side, and of two different types without marks, where two lists or two maps
have their elements to go by. -/
theorem join_induction {motive : Ty → Ty → Ty → Prop} (same : ∀ ty, motive ty ty ty)
    (errorLeft : ∀ ty, motive .error ty ty) (errorRight : ∀ ty, motive ty .error ty)
    (marked : ∀ left right, left ≠ right → left ≠ .error → right ≠ .error →
      (left.isEventual = true ∨ right.isEventual = true) →
      motive left.withoutEventual right.withoutEventual
        (left.withoutEventual.join right.withoutEventual) →
      motive left right (left.withoutEventual.join right.withoutEventual).mkEventual)
    (apart : ∀ left right, left ≠ right → left.isEventual = false → right.isEventual = false →
      left.join right = joinApart left right → right.join left = joinApart right left →
      (∀ l r, left = .list l ∧ right = .list r ∨ left = .map l ∧ right = .map r →
        motive l r (l.join r)) →
      motive left right (joinApart left right))
    (left right : Ty) : motive left right (left.join right) := by
  by_cases hdiffer : left = right
  · rw [hdiffer, join_self]
    exact same right
  by_cases hleft : left = .error
  · rw [hleft, error_join]
    exact errorLeft right
  by_cases hright : right = .error
  · rw [hright, join_error]
    exact errorRight left
  have hl := left.sizeOf_withoutEventual_le
  have hr := right.sizeOf_withoutEventual_le
  cases hmark : left.isEventual with
  | true =>
    obtain ⟨inner, rfl⟩ := exists_eventual hmark
    rw [join_mark_left hdiffer hright]
    exact marked _ _ hdiffer hleft hright (.inl hmark)
      (join_induction same errorLeft errorRight marked apart inner right.withoutEventual)
  | false =>
    cases hmark' : right.isEventual with
    | true =>
      obtain ⟨inner, rfl⟩ := exists_eventual hmark'
      rw [join_mark_right hdiffer hleft]
      exact marked _ _ hdiffer hleft hright (.inr hmark')
        (join_induction same errorLeft errorRight marked apart left.withoutEventual inner)
    | false =>
      have hjoin := join_eq_joinApart hdiffer hleft hmark hright hmark'
      rw [hjoin]
      refine apart left right hdiffer hmark hmark' hjoin
        (join_eq_joinApart (Ne.symm hdiffer) hright hmark' hleft hmark) fun l r hinner => ?_
      rcases hinner with ⟨rfl, rfl⟩ | ⟨rfl, rfl⟩ <;>
        exact join_induction same errorLeft errorRight marked apart l r
termination_by sizeOf left + sizeOf right
decreasing_by all_goals simp_all; omega

/-- A property that every bare type has and no eventual type has, and that wrappers and collections
share with what they hold. -/
structure Closed (property : Ty → Prop) : Prop where
  bare : ∀ {ty : Ty}, ty.bare = true → property ty
  not_eventual : ∀ {inner : Ty}, ¬ property (.eventual inner)
  optional : ∀ {inner : Ty}, property (.optional inner) ↔ property inner
  list : ∀ {element : Ty}, property (.list element) ↔ property element
  map : ∀ {values : Ty}, property (.map values) ↔ property values

namespace Closed

variable {property : Ty → Prop} (h : Closed property)

include h

theorem mkOptional (hty : property ty) : property ty.mkOptional := by
  cases ty with
  | optional | any | error => exact hty
  | _ => exact h.optional.mpr hty

theorem join (hleft : property left) (hright : property right) : property (left.join right) := by
  refine join_induction
    (motive := fun left right joined => property left → property right → property joined)
    (fun _ hty _ => hty) (fun _ _ hty => hty) (fun _ hty _ => hty)
    (fun left right _ _ _ hmark _ hl hr => ?_) (fun left right _ _ _ _ _ hinner hl hr => ?_)
    left right hleft hright
  · rcases hmark with hmark | hmark <;> obtain ⟨inner, rfl⟩ := exists_eventual hmark
    · exact absurd hl h.not_eventual
    · exact absurd hr h.not_eventual
  · rcases joinApart_cases left right with hjoin | ⟨rfl, hjoin⟩ | ⟨rfl, hjoin⟩ |
      ⟨rfl, rfl, hjoin⟩ | ⟨rfl, rfl, hjoin⟩ | ⟨l, r, rfl, rfl, hjoin⟩ | ⟨l, r, rfl, rfl, hjoin⟩ <;>
      rw [hjoin]
    · exact h.bare rfl
    · exact h.mkOptional hr
    · exact h.mkOptional hl
    · exact hr
    · exact hl
    · exact h.list.mpr (hinner l r (.inl ⟨rfl, rfl⟩) (h.list.mp hl) (h.list.mp hr))
    · exact h.map.mpr (hinner l r (.inr ⟨rfl, rfl⟩) (h.map.mp hl) (h.map.mp hr))

theorem resolved (hty : property ty.withoutEventual) : property ty.resolved := by
  have hinner : ∀ inner : Ty, property inner → property inner.resolved := by
    intro inner
    induction inner using Ty.resolved.induct with
    | case1 inner ih => exact fun hinner => absurd hinner h.not_eventual
    | case2 inner ih =>
      rw [Ty.resolved]
      exact fun hinner => ih (h.optional.mp hinner)
    | case3 inner hnotEventual hnotOptional =>
      rw [Ty.resolved]
      · exact id
      · exact hnotEventual
      · exact hnotOptional
  cases ty with
  | eventual inner =>
    rw [Ty.resolved]
    exact hinner inner hty
  | _ => exact hinner _ hty

theorem elementType (hty : property ty.withoutEventual) : property ty.elementType := by
  have hresolved := h.resolved hty
  unfold Ty.elementType
  split
  · next hlist => exact h.list.mp (hlist ▸ hresolved)
  · next hmap => exact h.map.mp (hmap ▸ hresolved)
  · next herror => exact herror ▸ hresolved
  · exact h.bare rfl

end Closed

theorem closed_bare : Closed fun ty => ty.bare = true :=
  ⟨id, Bool.false_ne_true, Iff.rfl, Iff.rfl, Iff.rfl⟩

theorem bare_resolved (h : ty.bare = true) : ty.resolved.bare = true :=
  closed_bare.resolved (tidy_of_bare h)

theorem tidy_join (hleft : left.tidy = true) (hright : right.tidy = true) :
    (left.join right).tidy = true ∧
      (left.join right).isEventual = (left.isEventual || right.isEventual) := by
  refine join_induction (motive := fun left right joined => left.tidy = true → right.tidy = true →
      joined.tidy = true ∧ joined.isEventual = (left.isEventual || right.isEventual))
    (fun _ hty _ => ⟨hty, by simp⟩) (fun _ herror => absurd herror Bool.false_ne_true)
    (fun _ _ herror => absurd herror Bool.false_ne_true)
    (fun left right _ _ _ hmark _ hl hr => ?_) (fun left right _ hmark hmark' hjoin _ _ hl hr => ?_)
    left right hleft hright
  · have hbare : (left.withoutEventual.join right.withoutEventual).bare = true :=
      closed_bare.join hl hr
    rw [mkEventual_of_bare hbare]
    exact ⟨hbare, (Bool.or_eq_true_iff.mpr hmark).symm⟩
  · rw [tidy, withoutEventual_eq_self hmark] at hl
    rw [tidy, withoutEventual_eq_self hmark'] at hr
    have hbare : (left.join right).bare = true := closed_bare.join hl hr
    rw [← hjoin, hmark, hmark']
    exact ⟨tidy_of_bare hbare, isEventual_of_bare hbare⟩

end Ty

/-! ## Declared types -/

namespace Schema

mutual

theorem SchemaType.bare_toTy : (type : SchemaType) → type.toTy.bare = true
  | .string | .number | .integer | .boolean | .any | .asset | .archive | .ref _ => rfl
  | .array items => SchemaType.bare_toTy items
  | .map values => SchemaType.bare_toTy values
  | .union oneOf => SchemaType.bare_toTys oneOf

theorem SchemaType.bare_toTys : (types : List SchemaType) →
    Ty.bareAll (SchemaType.toTys types) = true
  | [] => rfl
  | type :: rest => by
    simp [SchemaType.toTys, Ty.bareAll, SchemaType.bare_toTy type, SchemaType.bare_toTys rest]

end

theorem Property.bare_toTy (property : Property) : property.toTy.bare = true := by
  unfold Property.toTy
  split
  · exact SchemaType.bare_toTy property.type
  · exact Ty.closed_bare.mkOptional (SchemaType.bare_toTy property.type)

end Schema

theorem Builtin.bare_of_mem_params {builtin : Builtin} {param : Ty}
    (h : param ∈ builtin.params) : param.bare = true := by
  cases builtin <;> simp only [Builtin.params, List.mem_cons, List.not_mem_nil, or_false] at h <;>
    rcases h with rfl | rfl <;> rfl

theorem Builtin.bare_result (builtin : Builtin) : builtin.result.bare = true := by
  cases builtin <;> rfl

variable {expected : Ty}

namespace Binding

theorem bare_configTy (type : ConfigType) : (configTy type).bare = true := by
  cases type <;> rfl

/-! ## Types that binding works out -/

theorem bare_itemSlot (h : expected.bare = true) : (itemSlot expected).bare = true := by
  have hresolved := Ty.bare_resolved h
  unfold itemSlot
  split
  · simp_all [Ty.bare]
  · rfl

theorem bare_valueSlot (h : expected.bare = true) : (valueSlot expected).bare = true := by
  have hresolved := Ty.bare_resolved h
  unfold valueSlot
  split
  · simp_all [Ty.bare]
  · rfl

theorem tidy_eventualIf (eventual : Bool) (h : ty.tidy = true) :
    (eventualIf eventual ty).tidy = true ∧
      (eventualIf eventual ty).isEventual = (eventual || ty.isEventual) := by
  unfold eventualIf
  have hinner : ty.withoutEventual.bare = true := h
  cases eventual with
  | false => exact ⟨h, rfl⟩
  | true =>
    rw [if_pos rfl, Ty.mkEventual_of_bare hinner]
    exact ⟨hinner, rfl⟩

theorem memberTy_induction {motive : Ty → Prop} (hany : motive .any)
    (hjoin : ∀ left right, motive left → motive right → motive (left.join right))
    {exprs : List Bound.Expr} (h : ∀ expr ∈ exprs, motive expr.ty.withoutEventual) :
    motive ((memberTy exprs).getD .any) := by
  have hfold : ∀ (rest : List Ty) (first : Ty), motive first → (∀ ty ∈ rest, motive ty) →
      motive (rest.foldl Ty.join first) := by
    intro rest
    induction rest with
    | nil => exact fun first hfirst _ => hfirst
    | cons ty rest ih =>
      intro first hfirst hrest
      refine ih _ (hjoin first ty hfirst (hrest ty (by simp))) fun other hother => ?_
      exact hrest other (by simp [hother])
  cases exprs with
  | nil => exact hany
  | cons expr rest =>
    refine hfold _ _ (h expr (by simp)) fun ty hty => ?_
    obtain ⟨other, hother, rfl⟩ := List.mem_map.mp hty
    exact h other (by simp [hother])

end Binding

namespace Ty.Closed

open Binding

variable {property : Ty → Prop} (h : Closed property)

include h

theorem memberTy {exprs : List Bound.Expr}
    (hexprs : ∀ expr ∈ exprs, property expr.ty.withoutEventual) :
    property ((memberTy exprs).getD .any) :=
  memberTy_induction (h.bare rfl) (fun _ _ => h.join) hexprs

theorem listTy {items : List Bound.Expr} (hexpected : expected.bare = true)
    (hitems : ∀ item ∈ items, property item.ty.withoutEventual) :
    property (listTy expected items) := by
  have hresolved := h.bare (bare_resolved hexpected)
  unfold Binding.listTy
  split
  · next hlist => rwa [hlist] at hresolved
  · exact h.list.mpr (h.memberTy hitems)

theorem mapTy {values : List Bound.Expr} (hexpected : expected.bare = true)
    (hvalues : ∀ value ∈ values, property value.ty.withoutEventual) :
    property (mapTy expected values) := by
  have hresolved := h.bare (bare_resolved hexpected)
  unfold Binding.mapTy
  split
  · next hmap => rwa [hmap] at hresolved
  · exact h.map.mpr (h.memberTy hvalues)

theorem elementTy {collection element : Ty} (hcollection : property collection.withoutEventual)
    (helement : elementTy collection = some element) : property element := by
  have hresolved := h.resolved hcollection
  unfold Binding.elementTy at helement
  split at helement <;> cases helement
  · next hlist => exact h.list.mp (hlist ▸ hresolved)
  · next hmap => exact h.map.mp (hmap ▸ hresolved)
  · exact h.bare rfl
  · exact h.bare rfl
  · next herror => exact herror ▸ hresolved

theorem callTy {builtin : Builtin} {args : List Bound.Expr}
    (hargs : ∀ arg ∈ args, property arg.ty.withoutEventual) : property (callTy builtin args) := by
  unfold Binding.callTy
  split
  · exact h.elementType (hargs _ (by simp))
  · exact hargs _ (by simp)
  · exact h.bare (Builtin.bare_result _)

end Ty.Closed

end Provision
