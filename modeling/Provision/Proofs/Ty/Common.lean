import Mathlib.Data.List.Perm.Basic
import Provision.Proofs.Ty.Bounds

/-!
# The common type of several members

The common type of several members is the join of their types, one after the other. `null` makes
its neighbour optional and an optional type has nothing in common with another one, so the order of
the members can matter. `Clashes` says exactly when it does.
-/

namespace Provision.Ty

variable {tys : List Ty}

def common (tys : List Ty) : Ty := tys.foldl join .error

/-! ## Joins of plain types -/

theorem mkOptional_mkOptional (ty : Ty) : ty.mkOptional.mkOptional = ty.mkOptional := by
  cases ty <;> rfl

theorem mkOptional_ne_error {ty : Ty} (h : ty ≠ .error) : ty.mkOptional ≠ .error := by
  cases ty <;> simp_all [mkOptional]

section

variable {left right : Ty} (hleft : left.plain = true) (hright : right.plain = true)

include hright in
theorem any_join : Ty.any.join right = .any := by
  cases right <;> first | rfl | exact absurd hright Bool.false_ne_true

include hleft hright

theorem join_eq_joinApart_of_plain (hdiffer : left ≠ right) (herror : left ≠ .error)
    (herror' : right ≠ .error) : left.join right = joinApart left right :=
  join_eq_joinApart hdiffer herror (isEventual_of_plain hleft) herror' (isEventual_of_plain hright)

omit hright in
theorem join_null (herror : left ≠ .error) (hnull : left ≠ .null) :
    left.join .null = left.mkOptional := by
  rw [join_eq_joinApart_of_plain hleft rfl hnull herror (by simp)]
  cases left <;> rfl

omit hleft in
theorem null_join (herror : right ≠ .error) (hnull : right ≠ .null) :
    Ty.null.join right = right.mkOptional := by
  rw [join_comm, join_null hright herror hnull]

theorem mkOptional_join (herror : left ≠ .error) (herror' : right ≠ .error) (hnull : right ≠ .null)
    (hdiffer : right ≠ left.mkOptional) : left.mkOptional.join right = .any := by
  rw [join_eq_joinApart_of_plain (plain_mkOptional hleft) hright (Ne.symm hdiffer)
    (mkOptional_ne_error herror) herror']
  cases left <;> cases right <;> first | rfl | contradiction

theorem join_ne (ty : Ty) (h : ty = .null ∨ ty = .error) (hl : left ≠ ty) (hr : right ≠ ty) :
    left.join right ≠ ty := by
  have hoptional (inner : Ty) (hinner : inner ≠ ty) : inner.mkOptional ≠ ty := by
    rcases h with rfl | rfl
    · cases inner <;> simp [mkOptional]
    · exact mkOptional_ne_error hinner
  by_cases hsame : left = right
  · rwa [hsame, join_self]
  by_cases hlefterror : left = .error
  · rwa [hlefterror, error_join]
  by_cases hrighterror : right = .error
  · rwa [hrighterror, join_error]
  rw [join_eq_joinApart_of_plain hleft hright hsame hlefterror hrighterror]
  rcases joinApart_cases left right with hjoin | ⟨-, hjoin⟩ | ⟨-, hjoin⟩ | ⟨-, -, hjoin⟩ |
    ⟨-, -, hjoin⟩ | ⟨l, r, -, -, hjoin⟩ | ⟨l, r, -, -, hjoin⟩ <;> rw [hjoin]
  · rcases h with rfl | rfl <;> simp
  · exact hoptional right hr
  · exact hoptional left hl
  all_goals rcases h with rfl | rfl <;> simp

end

/-! ## Heads -/

/-- The outermost part of a type, by which two types have something in common or not. -/
def head : Ty → Ty
  | .list _ => .list .any
  | .map _ => .map .any
  | .int => .number
  | ty => ty

theorem head_join {left right : Ty} (hleft : left.plain = true) (hright : right.plain = true)
    (herror : left ≠ .error) (herror' : right ≠ .error) (hnull : left ≠ .null)
    (hnull' : right ≠ .null) (hany : left.join right ≠ .any) :
    left.head = right.head ∧ (left.join right).head = left.head := by
  by_cases hsame : left = right
  · rw [hsame, join_self]
    exact ⟨rfl, rfl⟩
  rw [join_eq_joinApart_of_plain hleft hright hsame herror herror'] at hany ⊢
  rcases joinApart_cases left right with hjoin | ⟨h, -⟩ | ⟨h, -⟩ | ⟨rfl, rfl, hjoin⟩ |
    ⟨rfl, rfl, hjoin⟩ | ⟨l, r, rfl, rfl, hjoin⟩ | ⟨l, r, rfl, rfl, hjoin⟩
  · exact absurd hjoin hany
  · exact absurd h hnull
  · exact absurd h hnull'
  all_goals
    rw [hjoin]
    exact ⟨rfl, rfl⟩

section

variable (hplain : ∀ ty ∈ tys, ty.plain = true)

include hplain

theorem foldl_any : tys.foldl join .any = .any := by
  induction tys with
  | nil => rfl
  | cons ty rest ih =>
    obtain ⟨hty, hrest⟩ := List.forall_mem_cons.mp hplain
    rw [List.foldl_cons, any_join hty, ih hrest]

theorem heads_of_foldl {start : Ty} (hnull : .null ∉ tys) (hstart : start.plain = true)
    (hstartNull : start ≠ .null) (hany : tys.foldl join start ≠ .any) :
    (start ≠ .error → start.head = (tys.foldl join start).head) ∧
      ∀ ty ∈ tys, ty ≠ .error → ty.head = (tys.foldl join start).head := by
  induction tys generalizing start with
  | nil => simp
  | cons ty rest ih =>
    obtain ⟨hty, hrest⟩ := List.forall_mem_cons.mp hplain
    obtain ⟨htyNull, hrestNull⟩ := not_or.mp (mt List.mem_cons.mpr hnull)
    rw [List.foldl_cons] at hany ⊢
    obtain ⟨hjoined, hothers⟩ := ih hrest hrestNull (plain_join hstart hty)
      (join_ne hstart hty .null (.inl rfl) hstartNull (Ne.symm htyNull)) hany
    -- What was joined before has the head of the result, and so have both of its sides.
    have hsides : (start ≠ .error → start.head = (rest.foldl join (start.join ty)).head) ∧
        (ty ≠ .error → ty.head = (rest.foldl join (start.join ty)).head) := by
      by_cases herror : start = .error
      · simp_all
      by_cases herror' : ty = .error
      · simp_all
      have hnotAny : start.join ty ≠ .any := by
        intro heq
        rw [heq, foldl_any hrest] at hany
        exact hany rfl
      obtain ⟨hsame, hhead⟩ := head_join hstart hty herror herror' hstartNull (Ne.symm htyNull)
        hnotAny
      have hresult := hjoined (join_ne hstart hty .error (.inr rfl) herror herror')
      exact ⟨fun _ => hhead.symm.trans hresult,
        fun _ => hsame.symm.trans (hhead.symm.trans hresult)⟩
    exact ⟨hsides.1, List.forall_mem_cons.mpr ⟨hsides.2, hothers⟩⟩

theorem common_eq_any {first second : Ty} (hnull : .null ∉ tys) (hfirst : first ∈ tys)
    (hsecond : second ∈ tys) (herror : first ≠ .error) (herror' : second ≠ .error)
    (hheads : first.head ≠ second.head) : common tys = .any := by
  by_contra hany
  obtain ⟨-, hothers⟩ := heads_of_foldl hplain hnull rfl (by simp) hany
  exact hheads ((hothers first hfirst herror).trans (hothers second hsecond herror').symm)

end

/-! ## Members of two types -/

theorem foldl_of_chain {low high start : Ty} (hjoin : low.join high = high)
    (hmembers : ∀ ty ∈ tys, ty = .error ∨ ty = low ∨ ty = high)
    (hstart : start = high ∨ (start = .error ∨ start = low) ∧ high ∈ tys) :
    tys.foldl join start = high := by
  have hjoin' : high.join low = high := by rw [join_comm, hjoin]
  induction tys generalizing start with
  | nil => exact hstart.resolve_right (by simp)
  | cons ty rest ih =>
    obtain ⟨hty, hrest⟩ := List.forall_mem_cons.mp hmembers
    refine ih hrest ?_
    rcases hstart with rfl | ⟨hstart, hhigh⟩
    · rcases hty with rfl | rfl | rfl <;> simp [hjoin']
    · by_cases hself : ty = high
      · subst hself
        rcases hstart with rfl | rfl <;> simp [hjoin]
      · have hmem := (List.mem_cons.mp hhigh).resolve_left (Ne.symm hself)
        refine .inr ⟨?_, hmem⟩
        rcases hstart with rfl | rfl <;>
          rcases hty.imp_right (Or.resolve_right · hself) with rfl | rfl <;> simp

theorem common_of_chain {low high : Ty} (hjoin : low.join high = high)
    (hmembers : ∀ ty ∈ tys, ty = .error ∨ ty = low ∨ ty = high)
    (hmem : high = .error ∨ high ∈ tys) : common tys = high :=
  foldl_of_chain hjoin hmembers (hmem.imp Eq.symm fun hmem => ⟨.inl rfl, hmem⟩)

theorem common_perm_of_chain {low high : Ty} {others : List Ty} (hjoin : low.join high = high)
    (hmembers : ∀ ty ∈ tys, ty = .error ∨ ty = low ∨ ty = high)
    (hmem : high = .error ∨ high ∈ tys) (hperm : others.Perm tys) : common others = common tys := by
  rw [common_of_chain hjoin hmembers hmem, common_of_chain hjoin
    (fun ty hty => hmembers ty (hperm.mem_iff.mp hty)) (hmem.imp_right hperm.mem_iff.mpr)]

/-! ## Null beside one member -/

private theorem join_null_null {ty : Ty} (hplain : ty.plain = true) :
    (ty.join .null).join .null = ty.join .null := by
  by_cases herror : ty = .error
  · simp [herror]
  by_cases hnull : ty = .null
  · simp [hnull]
  rw [join_null hplain herror hnull, join_null (plain_mkOptional hplain)
    (mkOptional_ne_error herror), mkOptional_mkOptional]
  cases ty <;> simp [mkOptional]

theorem foldl_nulls (hmembers : ∀ ty ∈ tys, ty = .null ∨ ty = .error) {start : Ty}
    (hstart : start.plain = true) :
    tys.foldl join start = if .null ∈ tys then start.join .null else start := by
  induction tys generalizing start with
  | nil => simp
  | cons ty rest ih =>
    obtain ⟨hty, hrest⟩ := List.forall_mem_cons.mp hmembers
    rcases hty with rfl | rfl
    · rw [List.foldl_cons, ih hrest (plain_join hstart rfl), join_null_null hstart]
      simp
    · rw [List.foldl_cons, join_error, ih hrest hstart]
      simp

def solid : Ty → Bool
  | .null | .error => false
  | _ => true

theorem solid_iff {ty : Ty} : ty.solid = true ↔ ty ≠ .null ∧ ty ≠ .error := by
  cases ty <;> simp [solid]

theorem common_of_single {ty : Ty} {rest : List Ty} (hplain : ty.plain = true)
    (hsolid : ty.solid = true) (hmembers : ∀ other ∈ rest, other = .null ∨ other = .error)
    (hnull : .null ∈ rest) (hperm : tys.Perm (ty :: rest)) : common tys = ty.mkOptional := by
  obtain ⟨htyNull, htyError⟩ := solid_iff.mp hsolid
  obtain ⟨before, after, rfl⟩ := List.append_of_mem (hperm.mem_iff.mpr List.mem_cons_self)
  have hothers : (before ++ after).Perm rest := (List.perm_middle.symm.trans hperm).cons_inv
  have hbefore : ∀ other ∈ before, other = .null ∨ other = .error := fun other hother =>
    hmembers other (hothers.mem_iff.mp (List.mem_append_left after hother))
  have hafter : ∀ other ∈ after, other = .null ∨ other = .error := fun other hother =>
    hmembers other (hothers.mem_iff.mp (List.mem_append_right before hother))
  have hsomewhere : .null ∈ before ∨ .null ∈ after :=
    List.mem_append.mp (hothers.mem_iff.mpr hnull)
  have hoptional := join_null (plain_mkOptional hplain) (mkOptional_ne_error htyError)
    (by cases ty <;> simp [mkOptional])
  rw [common, List.foldl_append, List.foldl_cons, foldl_nulls hbefore rfl, error_join]
  split
  · rw [null_join hplain htyError htyNull, foldl_nulls hafter (plain_mkOptional hplain), hoptional,
      mkOptional_mkOptional, ite_self]
  · next hnot =>
    rw [error_join, foldl_nulls hafter hplain, if_pos (hsomewhere.resolve_left hnot),
      join_null hplain htyError htyNull]

/-! ## Collections -/

inductive Collection where
  | list
  | map

namespace Collection

def of : Collection → Ty → Ty
  | .list => Ty.list
  | .map => Ty.map

def held? : Collection → Ty → Option Ty
  | .list, .list element => some element
  | .map, .map values => some values
  | _, _ => none

def held (collection : Collection) (tys : List Ty) : List Ty := tys.filterMap collection.held?

def Covers (collection : Collection) (tys : List Ty) : Prop :=
  ∀ ty ∈ tys, ty = .error ∨ ∃ inner, ty = collection.of inner

variable (collection : Collection)

@[simp] theorem held?_of (inner : Ty) : collection.held? (collection.of inner) = some inner := by
  cases collection <;> rfl

@[simp] theorem held?_error : collection.held? .error = none := by
  cases collection <;> rfl

theorem held?_eq_some {ty inner : Ty} (h : collection.held? ty = some inner) :
    ty = collection.of inner := by
  cases collection <;> cases ty <;> simp_all [held?, of]

theorem of_inj {left right : Ty} (h : collection.of left = collection.of right) : left = right := by
  cases collection
  · exact Ty.list.inj h
  · exact Ty.map.inj h

private theorem of_ne_error (inner : Ty) : collection.of inner ≠ .error := by
  cases collection <;> simp [of]

theorem plain_of (inner : Ty) : (collection.of inner).plain = inner.plain := by
  cases collection <;> rfl

theorem sizeOf_lt (inner : Ty) : sizeOf inner < sizeOf (collection.of inner) := by
  cases collection <;> simp [of]

private theorem join_of (left right : Ty) :
    (collection.of left).join (collection.of right) = collection.of (left.join right) := by
  by_cases hsame : left = right
  · rw [hsame, join_self, join_self]
  · cases collection <;> simp [of, join, joinEventual, hsame]

private theorem foldl_of (hcovers : collection.Covers tys) (start : Ty) :
    tys.foldl join (collection.of start) =
      collection.of ((collection.held tys).foldl join start) := by
  induction tys generalizing start with
  | nil => rfl
  | cons ty rest ih =>
    obtain ⟨hty, hrest⟩ := List.forall_mem_cons.mp hcovers
    rcases hty with rfl | ⟨inner, rfl⟩
    · rw [List.foldl_cons, join_error, ih hrest]
      simp [held]
    · rw [List.foldl_cons, join_of, ih hrest]
      simp [held]

theorem common_eq (hcovers : collection.Covers tys) :
    common tys =
      if collection.held tys = [] then .error
      else collection.of (common (collection.held tys)) := by
  induction tys with
  | nil => rfl
  | cons ty rest ih =>
    obtain ⟨hty, hrest⟩ := List.forall_mem_cons.mp hcovers
    rcases hty with rfl | ⟨inner, rfl⟩
    · rw [common, List.foldl_cons, error_join]
      simpa [held, common] using ih hrest
    · rw [common, List.foldl_cons, error_join, collection.foldl_of hrest]
      simp [held, common]

private theorem perm_held (hcovers : collection.Covers tys) :
    tys.Perm ((collection.held tys).map collection.of ++ tys.filter (· == .error)) := by
  induction tys with
  | nil => exact .nil
  | cons ty rest ih =>
    obtain ⟨hty, hrest⟩ := List.forall_mem_cons.mp hcovers
    rcases hty with rfl | ⟨inner, rfl⟩
    · have hmiddle := ((ih hrest).cons Ty.error).trans List.perm_middle.symm
      simpa [held] using hmiddle
    · have herror := collection.of_ne_error inner
      simpa [held, herror] using (ih hrest).cons (collection.of inner)

private theorem held_append_errors (inners tys : List Ty) :
    collection.held (inners.map collection.of ++ tys.filter (· == .error)) = inners := by
  have herrors : (tys.filter (· == .error)).filterMap collection.held? = [] := by
    rw [List.filterMap_eq_nil_iff]
    intro ty hty
    have heq : ty = .error := by simpa using (List.mem_filter.mp hty).2
    rw [heq, held?_error]
  rw [held, List.filterMap_append, herrors, List.append_nil, List.filterMap_map]
  simp

theorem plain_held (hplain : ∀ ty ∈ tys, ty.plain = true) :
    ∀ inner ∈ collection.held tys, inner.plain = true := by
  intro inner hinner
  obtain ⟨ty, hty, hsome⟩ := List.mem_filterMap.mp hinner
  rw [← collection.plain_of, ← collection.held?_eq_some hsome]
  exact hplain ty hty

theorem exists_perm {inners : List Ty}
    (hcovers : collection.Covers tys) (hnonempty : collection.held tys ≠ [])
    (hinners : inners.Perm (collection.held tys)) :
    ∃ others, others.Perm tys ∧ common others = collection.of (common inners) := by
  -- The contents in the other order, with the errors after them.
  have hperm : (inners.map collection.of ++ tys.filter (· == .error)).Perm tys :=
    ((hinners.map collection.of).append_right _).trans (collection.perm_held hcovers).symm
  have hinnersNonempty : inners ≠ [] := by
    rintro rfl
    exact hnonempty hinners.symm.eq_nil
  refine ⟨_, hperm, ?_⟩
  rw [collection.common_eq fun ty hty => hcovers ty (hperm.mem_iff.mp hty),
    collection.held_append_errors, if_neg hinnersNonempty]

end Collection

theorem head_cases (first : Ty) :
    (∃ collection : Collection, ∀ ty, head ty = first.head → ∃ inner, ty = collection.of inner) ∨
      (∀ ty, head ty = first.head → ty = .int ∨ ty = .number) ∨
      ∀ ty, head ty = first.head → ty = first := by
  cases first with
  | list => exact .inl ⟨.list, fun ty h => by cases ty <;> simp_all [head, Collection.of]⟩
  | map => exact .inl ⟨.map, fun ty h => by cases ty <;> simp_all [head, Collection.of]⟩
  | int | number => exact .inr (.inl fun ty h => by cases ty <;> simp_all [head])
  | _ => exact .inr (.inr fun ty h => by cases ty <;> simp_all [head])

/-! ## Types that members can have in common -/

/-- The types that the members can have in common, in one order or another. -/
inductive Possible : List Ty → Ty → Prop
  | chain {tys : List Ty} {low high : Ty} (hjoin : low.join high = high)
      (h : ∀ ty ∈ tys, ty = .error ∨ ty = low ∨ ty = high) (hmem : high = .error ∨ high ∈ tys) :
      Possible tys high
  | held {tys : List Ty} {inner : Ty} (collection : Collection) (hcovers : collection.Covers tys)
      (hnonempty : collection.held tys ≠ []) (h : Possible (collection.held tys) inner) :
      Possible tys (collection.of inner)
  | apart {tys : List Ty} {first second : Ty} (hnull : .null ∉ tys) (hfirst : first ∈ tys)
      (hsecond : second ∈ tys) (hsolid : first ≠ .error) (hsolid' : second ≠ .error)
      (h : first.head ≠ second.head) : Possible tys .any
  /-- Null stands before two that are not the same optional type. -/
  | early {tys rest : List Ty} {first second : Ty}
      (hperm : tys.Perm (.null :: first :: second :: rest)) (hsolid : first.solid = true)
      (hsolid' : second.solid = true) (h : second ≠ first.mkOptional) : Possible tys .any
  /-- Null stands behind the members that make up a type, and the others are optional already. -/
  | late {tys front back : List Ty} {ty : Ty} (hperm : tys.Perm (front ++ .null :: back))
      (hsolid : ty.solid = true) (h : Possible front ty)
      (hback : ∀ other ∈ back, other = .error ∨ other = .null ∨ other = ty.mkOptional) :
      Possible tys ty.mkOptional

theorem Possible.perm {others : List Ty} {ty : Ty} (h : Possible tys ty)
    (hperm : others.Perm tys) : Possible others ty := by
  induction h generalizing others with
  | chain hjoin h hmem =>
    exact .chain hjoin (fun ty hty => h ty (hperm.mem_iff.mp hty))
      (hmem.imp_right hperm.mem_iff.mpr)
  | held collection hcovers hnonempty _ ih =>
    have hheld := hperm.filterMap collection.held?
    exact .held collection (fun ty hty => hcovers ty (hperm.mem_iff.mp hty))
      (fun hempty => hnonempty (hheld.symm.trans (.of_eq hempty)).eq_nil) (ih hheld)
  | apart hnull hfirst hsecond hsolid hsolid' h =>
    exact .apart (mt hperm.mem_iff.mp hnull) (hperm.mem_iff.mpr hfirst) (hperm.mem_iff.mpr hsecond)
      hsolid hsolid' h
  | early hfront hsolid hsolid' h => exact .early (hperm.trans hfront) hsolid hsolid' h
  | late hfront hsolid h hback => exact .late (hperm.trans hfront) hsolid h hback

private theorem common_null_first {first second : Ty} {rest : List Ty} (hfirst : first.plain = true)
    (hsecond : second.plain = true) (hrest : ∀ ty ∈ rest, ty.plain = true)
    (hsolid : first.solid = true) (hsolid' : second.solid = true)
    (hdiffer : second ≠ first.mkOptional) :
    common (.null :: first :: second :: rest) = .any := by
  obtain ⟨hfirstNull, hfirstError⟩ := solid_iff.mp hsolid
  obtain ⟨hsecondNull, hsecondError⟩ := solid_iff.mp hsolid'
  calc
    common (.null :: first :: second :: rest)
      = rest.foldl join ((Ty.null.join first).join second) := by simp [common]
    _ = rest.foldl join (first.mkOptional.join second) := by
      rw [null_join hfirst hfirstError hfirstNull]
    _ = rest.foldl join .any := by
      rw [mkOptional_join hfirst hsecond hfirstError hsecondError hsecondNull hdiffer]
    _ = .any := foldl_any hrest

theorem plain_foldl {start : Ty} (hstart : start.plain = true)
    (hplain : ∀ ty ∈ tys, ty.plain = true) : (tys.foldl join start).plain = true := by
  induction tys generalizing start with
  | nil => exact hstart
  | cons ty rest ih =>
    obtain ⟨hty, hrest⟩ := List.forall_mem_cons.mp hplain
    exact ih (plain_join hstart hty) hrest

theorem null_join_mkOptional {ty : Ty} (hplain : ty.plain = true) (herror : ty ≠ .error) :
    Ty.null.join ty.mkOptional = ty.mkOptional := by
  rw [null_join (plain_mkOptional hplain) (mkOptional_ne_error herror), mkOptional_mkOptional]
  cases ty <;> simp [mkOptional]

theorem Possible.exists_perm {ty : Ty} (h : Possible tys ty)
    (hplain : ∀ ty ∈ tys, ty.plain = true) : ∃ others, others.Perm tys ∧ common others = ty := by
  induction h with
  | chain hjoin h hmem => exact ⟨_, .refl _, common_of_chain hjoin h hmem⟩
  | held collection hcovers hnonempty _ ih =>
    obtain ⟨inners, hinners, rfl⟩ := ih (collection.plain_held hplain)
    exact collection.exists_perm hcovers hnonempty hinners
  | apart hnull hfirst hsecond hsolid hsolid' h =>
    exact ⟨_, .refl _, common_eq_any hplain hnull hfirst hsecond hsolid hsolid' h⟩
  | @early _ rest first second hperm hsolid hsolid' h =>
    have hplain' : ∀ ty ∈ Ty.null :: first :: second :: rest, ty.plain = true :=
      fun ty hty => hplain ty (hperm.mem_iff.mpr hty)
    exact ⟨_, hperm.symm, common_null_first (hplain' first (by simp)) (hplain' second (by simp))
        (fun ty hty => hplain' ty (by simp [hty])) hsolid hsolid' h⟩
  | @late _ front back ty hperm hsolid _ hback ih =>
    have hplain' : ∀ ty ∈ front ++ Ty.null :: back, ty.plain = true :=
      fun ty hty => hplain ty (hperm.mem_iff.mpr hty)
    obtain ⟨others, hothers, rfl⟩ := ih fun ty hty => hplain' ty (by simp [hty])
    obtain ⟨hnull, herror⟩ := solid_iff.mp hsolid
    have hcommon : (common others).plain = true :=
      plain_foldl rfl fun ty hty => hplain' ty (by simp [hothers.mem_iff.mp hty])
    refine ⟨others ++ .null :: back, (hothers.append_right _).trans hperm.symm, ?_⟩
    rw [common, List.foldl_append, List.foldl_cons]
    change back.foldl join ((common others).join .null) = _
    rw [join_null hcommon herror hnull]
    exact foldl_of_chain (null_join_mkOptional hcommon herror) hback (.inl rfl)

theorem foldl_mkOptional {ty : Ty} {back : List Ty} (hplain : ty.plain = true)
    (hback : ∀ ty ∈ back, ty.plain = true) (hsolid : ty.solid = true) :
    (∀ other ∈ back, other = .error ∨ other = .null ∨ other = ty.mkOptional) ∧
        back.foldl join ty.mkOptional = ty.mkOptional ∨
      (∃ other ∈ back, other.solid = true ∧ other ≠ ty.mkOptional) ∧
        back.foldl join ty.mkOptional = .any := by
  obtain ⟨hnull, herror⟩ := solid_iff.mp hsolid
  induction back with
  | nil => simp
  | cons other rest ih =>
    obtain ⟨hother, hrest⟩ := List.forall_mem_cons.mp hback
    by_cases hfits : other = .error ∨ other = .null ∨ other = ty.mkOptional
    · have hjoin : [other].foldl join ty.mkOptional = ty.mkOptional :=
        foldl_of_chain (null_join_mkOptional hplain herror) (by simpa using hfits) (.inl rfl)
      rw [List.foldl_cons, show ty.mkOptional.join other = ty.mkOptional from hjoin]
      refine (ih hrest).imp (fun h => ⟨List.forall_mem_cons.mpr ⟨hfits, h.1⟩, h.2⟩) ?_
      rintro ⟨⟨found, hfound, h⟩, heq⟩
      exact ⟨⟨found, List.mem_cons_of_mem _ hfound, h⟩, heq⟩
    · push Not at hfits
      obtain ⟨hotherError, hotherNull, hdiffer⟩ := hfits
      rw [List.foldl_cons, mkOptional_join hplain hother herror hotherError hotherNull hdiffer,
        foldl_any hrest]
      have hsolid' := solid_iff.mpr ⟨hotherNull, hotherError⟩
      exact .inr ⟨⟨other, List.mem_cons_self, hsolid', hdiffer⟩, rfl⟩

theorem chain_or_covers_or_apart (tys : List Ty) :
    (∃ low high, low.join high = high ∧ (∀ ty ∈ tys, ty = .error ∨ ty = low ∨ ty = high) ∧
        (high = .error ∨ high ∈ tys)) ∨
      (∃ collection : Collection, collection.Covers tys ∧ collection.held tys ≠ []) ∨
      ∃ first ∈ tys, ∃ second ∈ tys,
        first ≠ .error ∧ second ≠ .error ∧ first.head ≠ second.head := by
  by_cases herrors : ∀ ty ∈ tys, ty = .error
  · exact .inl ⟨.error, .error, rfl, fun ty hty => .inl (herrors ty hty), .inl rfl⟩
  push Not at herrors
  obtain ⟨first, hfirst, hfirstError⟩ := herrors
  by_cases hheads : ∀ ty ∈ tys, ty ≠ .error → ty.head = first.head
  · have hmembers : ∀ {allowed : Ty → Prop}, (∀ ty, ty.head = first.head → allowed ty) →
        ∀ ty ∈ tys, ty = .error ∨ allowed ty := fun hallowed ty hty =>
      (em (ty = .error)).imp_right fun hty' => hallowed ty (hheads ty hty hty')
    rcases first.head_cases with ⟨collection, hcollection⟩ | hnumber | hsame
    · obtain ⟨inner, rfl⟩ := hcollection first rfl
      exact .inr (.inl ⟨collection, hmembers hcollection, List.ne_nil_of_mem
        (List.mem_filterMap.mpr ⟨_, hfirst, collection.held?_of inner⟩)⟩)
    · by_cases hmem : .number ∈ tys
      · exact .inl ⟨.int, .number, rfl, hmembers hnumber, .inr hmem⟩
      · refine .inl ⟨.int, .int, rfl, fun ty hty => ?_, .inr ?_⟩
        · grind
        · grind
    · exact .inl ⟨first, first, join_self first, hmembers fun ty hty => .inl (hsame ty hty),
        .inr hfirst⟩
  · push Not at hheads
    obtain ⟨second, hsecond, hsecondError, hdiffer⟩ := hheads
    exact .inr (.inr ⟨second, hsecond, first, hfirst, hsecondError, hfirstError, hdiffer⟩)

theorem possible_of_null_not_mem (hplain : ∀ ty ∈ tys, ty.plain = true) (hnull : .null ∉ tys)
    (hheld : ∀ collection : Collection,
      Possible (collection.held tys) (common (collection.held tys))) :
    Possible tys (common tys) := by
  rcases chain_or_covers_or_apart tys with ⟨low, high, hjoin, hmembers, hmem⟩ |
    ⟨collection, hcovers, hnonempty⟩ | ⟨first, hfirst, second, hsecond, herror, herror', hdiffer⟩
  · rw [common_of_chain hjoin hmembers hmem]
    exact .chain hjoin hmembers hmem
  · rw [collection.common_eq hcovers, if_neg hnonempty]
    exact .held collection hcovers hnonempty (hheld collection)
  · rw [common_eq_any hplain hnull hfirst hsecond herror herror' hdiffer]
    exact .apart hnull hfirst hsecond herror herror' hdiffer

theorem possible_from_null {front back : List Ty} (hback : ∀ ty ∈ back, ty.plain = true)
    (hfront : ∀ ty ∈ front, ty = .error ∨ ty = .null) (hnull : .null ∈ front) :
    Possible (front ++ back) (back.foldl join .null) := by
  induction back generalizing front with
  | nil =>
    rw [List.append_nil]
    exact .chain (join_self .null) (fun ty hty => (hfront ty hty).imp_right .inl) (.inr hnull)
  | cons ty rest ih =>
    obtain ⟨hty, hrest⟩ := List.forall_mem_cons.mp hback
    cases hsolid : ty.solid with
    | false =>
      have hskip : ty = .error ∨ ty = .null := by
        by_contra hne
        obtain ⟨herror, hnull⟩ := not_or.mp hne
        simp [solid_iff.mpr ⟨hnull, herror⟩] at hsolid
      have hjoin : Ty.null.join ty = .null := by rcases hskip with rfl | rfl <;> simp
      have hstep := @ih (front ++ [ty]) hrest
        (List.forall_mem_append.mpr ⟨hfront, by simpa using hskip⟩) (by simp [hnull])
      rwa [List.foldl_cons, hjoin, List.append_cons]
    | true =>
      obtain ⟨htyNull, htyError⟩ := solid_iff.mp hsolid
      rw [List.foldl_cons, null_join hty htyError htyNull]
      have hfirst : (front ++ ty :: rest).Perm (ty :: .null :: (front.erase .null ++ rest)) :=
        List.perm_middle.trans (((List.perm_cons_erase hnull).append_right rest).cons ty)
      have hself : Possible [ty] ty := .chain (join_self ty) (by simp) (by simp)
      rcases foldl_mkOptional hty hrest hsolid with ⟨hfits, heq⟩ |
        ⟨⟨other, hother, hsolid', hdiffer⟩, heq⟩
      · rw [heq]
        refine .late hfirst hsolid hself ?_
        intro other hother
        rcases List.mem_append.mp hother with hother | hother
        · exact (hfront other (List.mem_of_mem_erase hother)).imp_right .inl
        · exact hfits other hother
      · rw [heq]
        have hsecond : (front.erase .null ++ rest).Perm
            (other :: (front.erase .null ++ rest.erase other)) :=
          ((List.perm_cons_erase hother).append_left _).trans List.perm_middle
        have hperm := hfirst.trans ((List.Perm.swap ..).trans ((hsecond.cons ty).cons .null))
        exact .early hperm hsolid hsolid' hdiffer

theorem solid_common {member : Ty} (hplain : ∀ ty ∈ tys, ty.plain = true) (hnull : .null ∉ tys)
    (hmem : member ∈ tys) (hsolid : member.solid = true) : (common tys).solid = true := by
  by_cases hany : common tys = .any
  · rw [hany]
    rfl
  · have herror := (solid_iff.mp hsolid).2
    have hhead := (heads_of_foldl hplain hnull rfl (by simp) hany).2 member hmem herror
    change member.head = (common tys).head at hhead
    rw [solid_iff]
    constructor <;> intro heq <;> rw [heq] at hhead <;> cases member <;> simp_all [head, solid]

private theorem possible_any {front back : List Ty} {first second : Ty} (hfirst : first ∈ front)
    (hsecond : second ∈ back) (hsolid : first.solid = true) (hsolid' : second.solid = true)
    (hdiffer : second ≠ first.mkOptional ∨ first ≠ second.mkOptional) :
    Possible (front ++ .null :: back) .any := by
  have hperm : (front ++ back).Perm (first :: second :: (front.erase first ++ back.erase second)) :=
    ((List.perm_cons_erase hfirst).append (List.perm_cons_erase hsecond)).trans
      (List.perm_middle.cons first)
  have hall := List.perm_middle.trans (hperm.cons Ty.null)
  rcases hdiffer with hdiffer | hdiffer
  · exact .early hall hsolid hsolid' hdiffer
  · exact .early (hall.trans ((List.Perm.swap ..).cons _)) hsolid' hsolid hdiffer

private theorem possible_of_null_mem {front back : List Ty}
    (hplain : ∀ ty ∈ front ++ .null :: back, ty.plain = true) (hnull : .null ∉ front)
    (hfront : Possible front (common front)) :
    Possible (front ++ .null :: back) (common (front ++ .null :: back)) := by
  have hplainFront : ∀ ty ∈ front, ty.plain = true := fun ty hty => hplain ty (by simp [hty])
  have hplainBack : ∀ ty ∈ back, ty.plain = true := fun ty hty => hplain ty (by simp [hty])
  have hcommon : common (front ++ .null :: back) = back.foldl join ((common front).join .null) := by
    rw [common, List.foldl_append, List.foldl_cons]
    rfl
  by_cases hsolid : ∃ member ∈ front, member.solid = true
  · obtain ⟨member, hmember, hsolid⟩ := hsolid
    have hsolid' := solid_common hplainFront hnull hmember hsolid
    have hplain' : (common front).plain = true := plain_foldl rfl hplainFront
    rw [hcommon, join_null hplain' (solid_iff.mp hsolid').2 (solid_iff.mp hsolid').1]
    rcases foldl_mkOptional hplain' hplainBack hsolid' with ⟨hfits, heq⟩ |
      ⟨⟨other, hother, hotherSolid, hdiffer⟩, heq⟩
    · rw [heq]
      exact .late (.refl _) hsolid' hfront hfits
    · rw [heq]
      -- If it was the same optional type as all of those before null, nothing would be lost.
      obtain ⟨first, hfirst, hfirstSolid, hpair⟩ : ∃ first ∈ front, first.solid = true ∧
          (other ≠ first.mkOptional ∨ first ≠ other.mkOptional) := by
        by_contra hall
        push Not at hall
        have hsame : ∀ ty ∈ front, ty = .error ∨ ty = other.mkOptional ∨ ty = other.mkOptional := by
          intro ty hty
          refine or_iff_not_imp_left.mpr fun herror => .inl (hall ty hty ?_).2
          exact solid_iff.mpr ⟨fun heq => hnull (heq ▸ hty), herror⟩
        obtain ⟨hback, hmemberEq⟩ := hall member hmember hsolid
        refine hdiffer ?_
        rw [common_of_chain (join_self _) hsame (.inr (hmemberEq ▸ hmember)), ← hmemberEq, ← hback]
      exact possible_any hfirst hother hfirstSolid hotherSolid hpair
  · have herrors : ∀ ty ∈ front, ty = .error := by
      intro ty hty
      by_contra herror
      exact hsolid ⟨ty, hty, solid_iff.mpr ⟨fun heq => hnull (heq ▸ hty), herror⟩⟩
    have hnone : common front = .error :=
      common_of_chain (join_self .error) (fun ty hty => .inl (herrors ty hty)) (.inl rfl)
    rw [hcommon, hnone, error_join]
    have hstart := @possible_from_null (front ++ [.null]) back hplainBack
      (List.forall_mem_append.mpr ⟨fun ty hty => .inl (herrors ty hty), by simp⟩) (by simp)
    rwa [← List.append_cons] at hstart

private theorem possible_common {bound : Nat} (hbound : ∀ ty ∈ tys, sizeOf ty < bound)
    (hplain : ∀ ty ∈ tys, ty.plain = true) : Possible tys (common tys) := by
  -- The induction is on the depth of the members, as the contents of collections are joined.
  induction bound generalizing tys with
  | zero =>
    have hempty : tys = [] :=
      List.eq_nil_iff_forall_not_mem.mpr fun ty hty => Nat.not_lt_zero _ (hbound ty hty)
    subst hempty
    exact .chain (join_self .error) (by simp) (.inl rfl)
  | succ bound ih =>
    have hfree {members : List Ty} (hsub : members ⊆ tys) (hnull : .null ∉ members) :
        Possible members (common members) := by
      have hplain' : ∀ ty ∈ members, ty.plain = true := fun ty hty => hplain ty (hsub hty)
      refine possible_of_null_not_mem hplain' hnull fun collection =>
        ih ?_ (collection.plain_held hplain')
      intro inner hinner
      obtain ⟨ty, hty, hsome⟩ := List.mem_filterMap.mp hinner
      have hsize := hbound ty (hsub hty)
      rw [collection.held?_eq_some hsome] at hsize
      have hlt := collection.sizeOf_lt inner
      omega
    by_cases hnull : .null ∈ tys
    · obtain ⟨front, back, rfl, hfront⟩ := List.eq_append_cons_of_mem hnull
      exact possible_of_null_mem hplain hfront (hfree (List.subset_append_left _ _) hfront)
    · exact hfree (List.Subset.refl tys) hnull

/-! ## When the order matters -/

/-- The order of the members matters: null stands beside two others that are not the same optional
type, although the members can have another type than `any` in common; or the members are
collections, and it matters for their contents. -/
inductive Clashes : List Ty → Prop
  | null {tys rest : List Ty} {first second ty : Ty} :
      tys.Perm (.null :: first :: second :: rest) → first.solid = true → second.solid = true →
      second ≠ first.mkOptional → Possible tys ty → ty ≠ .any → Clashes tys
  | held {tys : List Ty} (collection : Collection) : collection.Covers tys →
      Clashes (collection.held tys) → Clashes tys

theorem Clashes.exists_perm (hplain : ∀ ty ∈ tys, ty.plain = true) (h : Clashes tys) :
    ∃ others, others.Perm tys ∧ common others ≠ common tys := by
  induction h with
  | @null tys _ _ _ _ hperm hfirst hsecond hdiffer hpossible hany =>
    obtain ⟨others, hothers, rfl⟩ := hpossible.exists_perm hplain
    obtain ⟨early, hearly, hcommon⟩ :=
      (Possible.early hperm hfirst hsecond hdiffer).exists_perm hplain
    by_cases hself : common tys = .any
    · exact ⟨others, hothers, by rwa [hself]⟩
    · exact ⟨early, hearly, by rw [hcommon]; exact Ne.symm hself⟩
  | @held tys collection hcovers hclash ih =>
    obtain ⟨inners, hinners, hdiffer⟩ := ih (collection.plain_held hplain)
    have hnonempty : collection.held tys ≠ [] := by
      intro hempty
      rw [hempty] at hinners hdiffer
      exact hdiffer (by rw [hinners.eq_nil])
    obtain ⟨others, hothers, hcommon⟩ := collection.exists_perm hcovers hnonempty hinners
    refine ⟨others, hothers, fun heq => hdiffer (collection.of_inj ?_)⟩
    rw [← hcommon, heq, collection.common_eq hcovers, if_neg hnonempty]

/-! ## When it does not -/

section

variable {others : List Ty} (hplain : ∀ ty ∈ tys, ty.plain = true) (hclash : ¬ Clashes tys)
  (hperm : others.Perm tys)

include hplain hclash hperm

private theorem eq_mkOptional_or_common_perm {first second : Ty} {rest : List Ty}
    (hfront : tys.Perm (.null :: first :: second :: rest)) (hfirst : first.solid = true)
    (hsecond : second.solid = true) :
    second = first.mkOptional ∨ common others = common tys := by
  by_cases hdiffer : second = first.mkOptional
  · exact .inl hdiffer
  · have hany {us : List Ty} (hus : us.Perm tys) : common us = .any := by
      by_contra hcommon
      have hpossible : Possible us (common us) :=
        possible_common (fun ty hty => List.sizeOf_lt_of_mem hty)
          fun ty hty => hplain ty (hus.mem_iff.mp hty)
      exact hclash (.null hfront hfirst hsecond hdiffer (hpossible.perm hus.symm) hcommon)
    exact .inr ((hany hperm).trans (hany (.refl tys)).symm)

theorem common_perm_of_null (hnull : .null ∈ tys) : common others = common tys := by
  have hsplit : tys.Perm (tys.filter solid ++ tys.filter (!·.solid)) :=
    (List.filter_append_perm solid tys).symm
  have hrest : ∀ ty ∈ tys.filter (!·.solid), ty = .null ∨ ty = .error := by
    intro ty hty
    cases ty <;> simp_all [solid]
  have hrestNull : Ty.null ∈ tys.filter (!·.solid) := List.mem_filter.mpr ⟨hnull, rfl⟩
  have hsolid : ∀ ty ∈ tys.filter solid, ty.solid = true := fun ty hty => (List.mem_filter.mp hty).2
  have hchain {low high : Ty} (hjoin : low.join high = high) (hmem : high ∈ tys)
      (hmembers : ∀ ty ∈ tys, ty = .error ∨ ty = low ∨ ty = high) : common others = common tys :=
    common_perm_of_chain hjoin hmembers (.inr hmem) hperm
  match hmatters : tys.filter solid with
  | [] =>
    refine hchain (join_self .null) hnull fun ty hty => ?_
    have hty' : ty ∈ tys.filter (!·.solid) := by simpa [hmatters] using hsplit.mem_iff.mp hty
    exact (hrest ty hty').elim (fun h => .inr (.inl h)) .inl
  | [single] =>
    have hone : tys.Perm (single :: tys.filter (!·.solid)) := by simpa [hmatters] using hsplit
    have hsinglePlain := hplain single (hone.mem_iff.mpr List.mem_cons_self)
    have hsingleSolid := hsolid single (by simp [hmatters])
    rw [common_of_single hsinglePlain hsingleSolid hrest hrestNull hone,
      common_of_single hsinglePlain hsingleSolid hrest hrestNull (hperm.trans hone)]
  | first :: second :: more =>
    -- Any two of the members that matter can be brought right behind a null.
    have hfront : ∀ {x y : Ty} {zs : List Ty}, (tys.filter solid).Perm (x :: y :: zs) →
        tys.Perm (.null :: x :: y :: (zs ++ (tys.filter (!·.solid)).erase .null)) := by
      intro x y zs hxy
      have hlast := hsplit.trans (hxy.append (List.perm_cons_erase hrestNull))
      exact hlast.trans List.perm_middle
    by_contra hdiffer
    have heach : ∀ {x y : Ty} {zs : List Ty}, (tys.filter solid).Perm (x :: y :: zs) →
        y = x.mkOptional := by
      intro x y zs hxy
      refine (eq_mkOptional_or_common_perm hplain hclash hperm (hfront hxy) ?_ ?_).resolve_right
        hdiffer
      · exact hsolid x (hxy.mem_iff.mpr (by simp))
      · exact hsolid y (hxy.mem_iff.mpr (by simp))
    have hsecond : second = first.mkOptional := heach (.of_eq hmatters)
    have hfirst : first = second.mkOptional := heach ((List.Perm.of_eq hmatters).trans (.swap ..))
    have hsame : first.mkOptional = first := by
      rw [hfirst, mkOptional_mkOptional]
    have hall : ∀ ty ∈ tys.filter solid, ty = first := by
      intro ty hty
      rw [hmatters] at hty
      rcases List.mem_cons.mp hty with rfl | hmore
      · rfl
      · have hty' : (tys.filter solid).Perm (first :: ty :: (second :: more).erase ty) :=
          (List.Perm.of_eq hmatters).trans ((List.perm_cons_erase hmore).cons first)
        exact (heach hty').trans hsame
    have hfirstMem : first ∈ tys.filter solid := by simp [hmatters]
    obtain ⟨hfirstNull, hfirstError⟩ := solid_iff.mp (hsolid first hfirstMem)
    have hjoin : Ty.null.join first = first := by
      rw [null_join (hplain first (List.mem_of_mem_filter hfirstMem)) hfirstError hfirstNull, hsame]
    refine hdiffer (hchain hjoin (List.mem_of_mem_filter hfirstMem) fun ty hty => ?_)
    rcases List.mem_append.mp (hsplit.mem_iff.mp hty) with hty | hty
    · exact .inr (.inr (hall ty hty))
    · exact (hrest ty hty).elim (fun h => .inr (.inl h)) .inl

omit hclash in
private theorem common_perm_or_covers (hnull : .null ∉ tys) :
    common others = common tys ∨ ∃ collection : Collection, collection.Covers tys := by
  rcases chain_or_covers_or_apart tys with ⟨low, high, hjoin, hmembers, hmem⟩ |
    ⟨collection, hcovers, -⟩ | ⟨first, hfirst, second, hsecond, herror, herror', hdiffer⟩
  · exact .inl (common_perm_of_chain hjoin hmembers hmem hperm)
  · exact .inr ⟨collection, hcovers⟩
  · have hany {us : List Ty} (hus : us.Perm tys) : common us = .any :=
      common_eq_any (fun ty hty => hplain ty (hus.mem_iff.mp hty)) (mt hus.mem_iff.mp hnull)
        (hus.mem_iff.mpr hfirst) (hus.mem_iff.mpr hsecond) herror herror' hdiffer
    exact .inl ((hany hperm).trans (hany (.refl tys)).symm)

end

private theorem common_perm_of_not_clashes {bound : Nat} {others : List Ty}
    (hbound : ∀ ty ∈ tys, sizeOf ty < bound) (hplain : ∀ ty ∈ tys, ty.plain = true)
    (hclash : ¬ Clashes tys) (hperm : others.Perm tys) : common others = common tys := by
  -- The induction is on the depth of the members, as the contents of collections are compared.
  induction bound generalizing tys others with
  | zero =>
    have hempty : tys = [] :=
      List.eq_nil_iff_forall_not_mem.mpr fun ty hty => Nat.not_lt_zero _ (hbound ty hty)
    subst hempty
    rw [hperm.eq_nil]
  | succ bound ih =>
    by_cases hnull : .null ∈ tys
    · exact common_perm_of_null hplain hclash hperm hnull
    rcases common_perm_or_covers hplain hperm hnull with hsame | ⟨collection, hcovers⟩
    · exact hsame
    have hcovers' : collection.Covers others := fun ty hty => hcovers ty (hperm.mem_iff.mp hty)
    have hheld : ∀ inner ∈ collection.held tys, sizeOf inner < bound ∧ inner.plain = true := by
      intro inner hinner
      obtain ⟨ty, hty, hsome⟩ := List.mem_filterMap.mp hinner
      obtain rfl := collection.held?_eq_some hsome
      have hsize := collection.sizeOf_lt inner
      have hsize' := hbound _ hty
      exact ⟨by omega, (collection.plain_of inner) ▸ hplain _ hty⟩
    have hcontents : (collection.held others).Perm (collection.held tys) :=
      hperm.filterMap collection.held?
    have hsame := ih (fun inner hinner => (hheld inner hinner).1)
      (fun inner hinner => (hheld inner hinner).2) (fun h => hclash (.held collection hcovers h))
      hcontents
    rw [collection.common_eq hcovers, collection.common_eq hcovers', hsame]
    simp only [← List.length_eq_zero_iff, hcontents.length_eq]

private theorem common_perm_iff (hplain : ∀ ty ∈ tys, ty.plain = true) :
    (∀ others, others.Perm tys → common others = common tys) ↔ ¬ Clashes tys := by
  constructor
  · intro hsame hclash
    obtain ⟨others, hperm, hdiffer⟩ := hclash.exists_perm hplain
    exact hdiffer (hsame others hperm)
  · intro hclash others hperm
    have hbound : ∀ ty ∈ tys, sizeOf ty < sizeOf tys := fun ty hty => List.sizeOf_lt_of_mem hty
    exact common_perm_of_not_clashes hbound hplain hclash hperm

/-- Whether neither the type nor what it holds, at any depth of lists and maps, is null. -/
def nullFree : Ty → Bool
  | .null => false
  | .list element => element.nullFree
  | .map values => values.nullFree
  | _ => true

theorem not_clashes_of_nullFree (h : ∀ ty ∈ tys, ty.nullFree = true) : ¬ Clashes tys := by
  intro hclash
  induction hclash with
  | null hperm => exact absurd (h .null (hperm.mem_iff.mpr List.mem_cons_self)) Bool.false_ne_true
  | held collection _ _ ih =>
    refine ih fun inner hinner => ?_
    obtain ⟨ty, hty, hsome⟩ := List.mem_filterMap.mp hinner
    have hfree := h ty hty
    rw [collection.held?_eq_some hsome] at hfree
    cases collection <;> exact hfree

end Provision.Ty

namespace Provision.Binding

theorem joinTys_getD (tys : List Ty) :
    (joinTys tys).getD .any = if tys = [] then .any else Ty.common tys := by
  cases tys with
  | nil => rfl
  | cons first rest => simp [joinTys, Ty.common]

theorem joinTys_perm_iff (hplain : ∀ ty ∈ tys, ty.plain = true) :
    (∀ others, others.Perm tys → (joinTys others).getD .any = (joinTys tys).getD .any) ↔
      ¬ Ty.Clashes tys := by
  rw [← Ty.common_perm_iff hplain]
  refine forall₂_congr fun others hperm => ?_
  rw [joinTys_getD, joinTys_getD]
  by_cases hempty : tys = []
  · subst hempty
    rw [hperm.eq_nil]
    simp
  · have hnonempty : others ≠ [] := by
      rintro rfl
      exact hempty hperm.symm.eq_nil
    rw [if_neg hempty, if_neg hnonempty]

end Provision.Binding
