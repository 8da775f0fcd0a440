import Mathlib.Data.List.Dedup
import Mathlib.Data.List.Perm.Subperm
import Provision.Names.Table

/-!
# Fresh names

Asking a table for a name gives the first of its candidates that is free. A loop that counts in 32
bits finds it after as many turns as there are used candidates ahead of it, unless these are too
many to be counted. The names handed out in a run differ from each other and from every name
reserved before, whichever bases they were made from.
-/

namespace Provision.Names.Table

variable {used : List String} {base name : String}

private theorem numbered_injective (base : String) : Function.Injective (numbered base) := by
  intro first second h
  have htexts : first.repr = second.repr := by simpa [numbered] using h
  have hdigits : Nat.toDigits 10 first = Nat.toDigits 10 second := by
    simpa using congrArg String.toList htexts
  calc
    first = Nat.ofDigitChars 10 (Nat.toDigits 10 first) 0 := by simp
    _ = second := by rw [hdigits]; simp

/-- The names a search tries: the base, then the base with 2, 3 and so on. -/
def candidate (base : String) : Nat → String
  | 0 => base
  | turns + 1 => numbered base (turns + 2)

private theorem candidate_injective (base : String) : Function.Injective (candidate base) := by
  have hne (number : Nat) : base ≠ numbered base number := by
    intro h
    have hlength := congrArg String.length h
    simp [numbered] at hlength
  rintro (_ | first) (_ | second) h
  · rfl
  · exact absurd h (hne _)
  · exact absurd h.symm (hne _)
  · have hnumber := numbered_injective base h
    omega

theorem turns_le_of_used {turns : Nat} (h : ∀ earlier < turns, candidate base earlier ∈ used) :
    turns ≤ used.dedup.length := by
  have hnodup : ((List.range turns).map (candidate base)).Nodup :=
    List.nodup_range.map (candidate_injective base)
  have hsubset : (List.range turns).map (candidate base) ⊆ used.dedup := by
    intro name hname
    obtain ⟨earlier, hearlier, rfl⟩ := List.mem_map.mp hname
    exact List.mem_dedup.mpr (h earlier (List.mem_range.mp hearlier))
  simpa using (hnodup.subperm hsubset).length_le

structure FoundAfter (used : List String) (base : String) (turns : Nat) (name : String) :
    Prop where
  name_eq : name = candidate base turns
  free : name ∉ used
  used : ∀ earlier < turns, candidate base earlier ∈ used

private theorem exists_foundAfter_seek {tries turns : Nat}
    (hbefore : ∀ earlier < turns + 1, candidate base earlier ∈ used)
    (htries : used.length ≤ turns + 1 + tries) :
    ∃ count, FoundAfter used base count (seek used base tries (turns + 2)) := by
  induction tries generalizing turns with
  | zero =>
    -- All candidates up to the last one would be used, more than there are used names.
    refine ⟨turns + 1, rfl, fun hused => ?_, hbefore⟩
    have hturns := turns_le_of_used (Nat.forall_lt_succ_right.mpr ⟨hbefore, hused⟩)
    have hlength := used.dedup_sublist.length_le
    omega
  | succ tries ih =>
    rw [seek]
    split
    · next hused =>
      have hused : numbered base (turns + 2) ∈ used := by simpa using hused
      exact ih (Nat.forall_lt_succ_right.mpr ⟨hbefore, hused⟩) (by omega)
    · next hfree => exact ⟨turns + 1, rfl, by simpa using hfree, hbefore⟩

theorem exists_foundAfter_pick (table : Table) (base : String) :
    ∃ turns, FoundAfter table.used base turns (table.pick base) := by
  unfold pick
  split
  · next hused =>
    have hbefore : ∀ earlier < 0 + 1, candidate base earlier ∈ table.used := by
      simpa [candidate] using hused
    exact exists_foundAfter_seek hbefore (Nat.le_add_left _ _)
  · next hfree => exact ⟨0, rfl, by simpa using hfree, by simp⟩

/-- The base when it is not taken, otherwise the base with the least number from 2 up that is
not. -/
def FirstFree (taken : String → Prop) (base name : String) : Prop :=
  ¬taken base ∧ name = base ∨
    taken base ∧ ∃ number, 2 ≤ number ∧ ¬taken (numbered base number) ∧
      (∀ smaller, 2 ≤ smaller → smaller < number → taken (numbered base smaller)) ∧
      name = numbered base number

theorem FoundAfter.firstFree {turns : Nat} (h : FoundAfter used base turns name) :
    FirstFree (· ∈ used) base name := by
  obtain ⟨rfl, hfree, hused⟩ := h
  cases turns with
  | zero => exact .inl ⟨hfree, rfl⟩
  | succ turns =>
    refine .inr ⟨hused 0 (by omega), turns + 2, by omega, hfree, ?_, rfl⟩
    intro smaller htwo hsmaller
    obtain ⟨step, rfl⟩ := Nat.exists_eq_add_of_le' htwo
    exact hused (step + 1) (by omega)

/-- The search as a loop: a used candidate gives way to the base with the number in the counter,
which goes up by one, and a free one ends the search. There is no turn at the last number. -/
inductive SearchEnds (used : List String) (base : String) : String → Int32 → Nat → String → Prop
  | free {candidate : String} {suffix : Int32} (hfree : candidate ∉ used) :
    SearchEnds used base candidate suffix 0 candidate
  | taken {candidate name : String} {suffix : Int32} {turns : Nat} (hused : candidate ∈ used)
    (hroom : suffix ≠ Int32.maxValue)
    (hrest : SearchEnds used base (base ++ toString suffix) (suffix + 1) turns name) :
    SearchEnds used base candidate suffix (turns + 1) name

def lastSuffix : Nat := 2147483647

private theorem counter_text {number : Nat} (h : number ≤ lastSuffix) :
    base ++ toString (Int32.ofNat number) = numbered base number := by
  change base ++ toString (Int32.ofNat number).toInt = _
  rw [Int32.toInt_ofNat_of_lt (Nat.lt_succ_of_le h)]
  rfl

private theorem counter_eq_maxValue {number : Nat} (h : number ≤ lastSuffix) :
    Int32.ofNat number = Int32.maxValue ↔ number = lastSuffix := by
  have hlast : Int32.maxValue = Int32.ofNat lastSuffix := rfl
  rw [hlast, ← Int32.toInt_inj, Int32.toInt_ofNat_of_lt (Nat.lt_succ_of_le h),
    Int32.toInt_ofNat_of_lt (by decide), Int.ofNat_inj]

private theorem searchEnds_from_iff (start : Nat) {more : Nat} (hstart : start + 2 ≤ lastSuffix)
    (hfree : candidate base (start + more) ∉ used)
    (hused : ∀ step < more, candidate base (start + step) ∈ used) {count : Nat} :
    SearchEnds used base (candidate base start) (Int32.ofNat (start + 2)) count name ↔
      start + more + 2 ≤ lastSuffix ∧ count = more ∧ name = candidate base (start + more) := by
  induction more generalizing start count with
  | zero =>
    constructor
    · rintro (_ | ⟨hmem, -, -⟩)
      · exact ⟨hstart, rfl, rfl⟩
      · exact absurd hmem hfree
    · rintro ⟨-, rfl, rfl⟩
      exact .free hfree
  | succ more ih =>
    have hfirst := hused 0 (Nat.succ_pos more)
    have hnext : base ++ toString (Int32.ofNat (start + 2)) = candidate base (start + 1) :=
      counter_text hstart
    have hstep : Int32.ofNat (start + 2) + 1 = Int32.ofNat (start + 1 + 2) := by
      rw [Nat.add_right_comm, Int32.ofNat_add (start + 2)]
      rfl
    have hshift (step : Nat) : start + (step + 1) = start + 1 + step := by omega
    rw [hshift more] at hfree ⊢
    have hlater : ∀ step < more, candidate base (start + 1 + step) ∈ used := by
      intro step hlt
      rw [← hshift]
      exact hused _ (Nat.succ_lt_succ hlt)
    constructor
    · rintro (hfree | ⟨-, hroom, hends⟩)
      · exact absurd hfirst hfree
      · have hroom : start + 1 + 2 ≤ lastSuffix := by
          have := (counter_eq_maxValue hstart).not.mp hroom
          omega
        rw [hnext, hstep] at hends
        obtain ⟨hlast, rfl, rfl⟩ := (ih (start + 1) hroom hfree hlater).mp hends
        exact ⟨hlast, rfl, rfl⟩
    · rintro ⟨hlast, rfl, rfl⟩
      refine .taken hfirst ((counter_eq_maxValue hstart).not.mpr (by omega)) ?_
      rw [hnext, hstep]
      exact (ih (start + 1) (by omega) hfree hlater).mpr ⟨hlast, rfl, rfl⟩

theorem FoundAfter.searchEnds_iff {turns : Nat} (h : FoundAfter used base turns name)
    (count : Nat) (found : String) :
    SearchEnds used base base 2 count found ↔
      turns + 2 ≤ lastSuffix ∧ count = turns ∧ found = name := by
  obtain ⟨rfl, hfree, hused⟩ := h
  have hends : SearchEnds used base base 2 count found ↔
      0 + turns + 2 ≤ lastSuffix ∧ count = turns ∧ found = candidate base (0 + turns) :=
    searchEnds_from_iff 0 (by decide) (by rwa [Nat.zero_add]) (by simpa using hused)
  rwa [Nat.zero_add turns] at hends

private theorem pick_not_mem (table : Table) (base : String) : table.pick base ∉ table.used := by
  obtain ⟨turns, hfound⟩ := table.exists_foundAfter_pick base
  exact hfound.free

theorem FirstFree.unique {taken : String → Prop} {other : String} (h : FirstFree taken base name)
    (hother : FirstFree taken base other) : name = other := by
  rcases h with ⟨hfree, rfl⟩ | ⟨htaken, number, htwo, hfree, hsmaller, rfl⟩
  · exact (hother.resolve_right fun h => hfree h.1).2.symm
  · obtain ⟨-, number', htwo', hfree', hsmaller', rfl⟩ := hother.resolve_left fun h => h.1 htaken
    rcases Nat.lt_trichotomy number number' with hlt | rfl | hlt
    · exact absurd (hsmaller' number htwo hlt) hfree
    · rfl
    · exact absurd (hsmaller number' htwo' hlt) hfree'

theorem firstFree_iff {table : Table} :
    FirstFree (· ∈ table.used) base name ↔ name = table.pick base := by
  obtain ⟨turns, hfound⟩ := table.exists_foundAfter_pick base
  refine ⟨fun h => h.unique hfound.firstFree, ?_⟩
  rintro rfl
  exact hfound.firstFree

theorem FirstFree.eq_or_numbered {taken : String → Prop} (h : FirstFree taken base name) :
    name = base ∨ ∃ number, name = numbered base number :=
  h.imp And.right fun ⟨_, number, _, _, _, heq⟩ => ⟨number, heq⟩

inductive Operation where
  | reserve (name : String)
  | unique (base : String)

def run (table : Table) : List Operation → List String × Table
  | [] => ([], table)
  | .reserve name :: rest => run (table.reserve name) rest
  | .unique base :: rest =>
    let (name, table) := table.unique base
    let (names, table) := run table rest
    (name :: names, table)

variable {table : Table} {operations : List Operation} {name : String} {bases : List String}

theorem run_append (first second : List Operation) :
    table.run (first ++ second) =
      ((table.run first).1 ++ ((table.run first).2.run second).1,
        ((table.run first).2.run second).2) := by
  induction first generalizing table with
  | nil => rfl
  | cons operation rest ih => cases operation <;> simp [run, ih]

theorem mem_used_run :
    name ∈ (table.run operations).2.used ↔
      name ∈ table.used ∨ .reserve name ∈ operations ∨ name ∈ (table.run operations).1 := by
  induction operations generalizing table with
  | nil => simp [run]
  | cons operation rest ih =>
    cases operation with
    | reserve other =>
      simp only [run, ih, reserve, List.mem_cons, Operation.reserve.injEq]
      tauto
    | unique base =>
      simp only [run, unique, ih, reserve, List.mem_cons, reduceCtorEq]
      tauto

theorem not_mem_used_of_mem_run (h : name ∈ (table.run operations).1) : name ∉ table.used := by
  induction operations generalizing table with
  | nil => simp [run] at h
  | cons operation rest ih =>
    cases operation with
    | reserve other => exact fun hused => ih h (List.mem_cons_of_mem _ hused)
    | unique base =>
      rcases List.mem_cons.mp h with rfl | h
      · exact pick_not_mem table base
      · exact fun hused => ih h (List.mem_cons_of_mem _ hused)

theorem nodup_run : (table.run operations).1.Nodup := by
  induction operations generalizing table with
  | nil => simp [run]
  | cons operation rest ih =>
    cases operation with
    | reserve other => exact ih
    | unique base =>
      refine List.nodup_cons.mpr ⟨fun h => ?_, ih⟩
      exact not_mem_used_of_mem_run h List.mem_cons_self

theorem uniqueAll_eq_run (table : Table) (bases : List String) :
    table.uniqueAll bases = table.run (bases.map .unique) := by
  induction bases generalizing table with
  | nil => rfl
  | cons base rest ih => simp [uniqueAll, run, ih]

@[simp] theorem length_uniqueAll (table : Table) (bases : List String) :
    (table.uniqueAll bases).1.length = bases.length := by
  induction bases generalizing table with
  | nil => rfl
  | cons base rest ih => simp [uniqueAll, ih]

theorem not_mem_used_of_mem_uniqueAll (h : name ∈ (table.uniqueAll bases).1) :
    name ∉ table.used := by
  rw [uniqueAll_eq_run] at h
  exact not_mem_used_of_mem_run h

theorem nodup_uniqueAll (table : Table) (bases : List String) :
    (table.uniqueAll bases).1.Nodup := by
  rw [uniqueAll_eq_run]
  exact nodup_run

theorem mem_uniqueAll_of_mem (hname : name ∈ bases) (hfree : name ∉ table.used) :
    name ∈ (table.uniqueAll bases).1 := by
  induction bases generalizing table with
  | nil => simp at hname
  | cons base rest ih =>
    simp only [uniqueAll, unique, List.mem_cons]
    by_cases hpick : name = table.pick base
    · exact .inl hpick
    · have hrest : name ∈ rest := by
        refine (List.mem_cons.mp hname).resolve_left ?_
        rintro rfl
        exact hpick (by simp [pick, hfree])
      exact .inr (ih hrest (List.not_mem_cons_of_ne_of_not_mem hpick hfree))

theorem mem_used_uniqueAll :
    name ∈ (table.uniqueAll bases).2.used ↔
      name ∈ table.used ∨ name ∈ (table.uniqueAll bases).1 := by
  rw [uniqueAll_eq_run, mem_used_run]
  simp

theorem mem_uniqueAll_iff :
    name ∈ (table.uniqueAll bases).1 ↔ ∃ earlier base later, bases = earlier ++ base :: later ∧
      FirstFree (· ∈ (table.uniqueAll earlier).2.used) base name := by
  induction bases generalizing table with
  | nil => simp [uniqueAll]
  | cons first rest ih =>
    simp only [uniqueAll, unique, List.mem_cons, ih, firstFree_iff]
    constructor
    · rintro (rfl | ⟨earlier, base, later, rfl, heq⟩)
      · exact ⟨[], first, rest, rfl, rfl⟩
      · exact ⟨first :: earlier, base, later, rfl, heq⟩
    · rintro ⟨earlier, base, later, hsplit, heq⟩
      cases earlier with
      | nil =>
        obtain ⟨rfl, rfl⟩ := List.cons.inj hsplit
        exact .inl heq
      | cons _ earlier =>
        obtain ⟨rfl, rfl⟩ := List.cons.inj hsplit
        exact .inr ⟨earlier, base, later, rfl, heq⟩

theorem exists_base_of_mem_uniqueAll (h : name ∈ (table.uniqueAll bases).1) :
    ∃ base ∈ bases, name = base ∨ ∃ number, name = numbered base number := by
  obtain ⟨earlier, base, later, rfl, hfirst⟩ := mem_uniqueAll_iff.mp h
  exact ⟨base, by simp, hfirst.eq_or_numbered⟩

def Taken (reserved : List String) (operations : List Operation) (name : String) : Prop :=
  name ∈ reserved ∨ .reserve name ∈ operations ∨
    name ∈ ((withReserved reserved).run operations).1

theorem taken_eq (reserved : List String) (operations : List Operation) :
    Taken reserved operations = (· ∈ ((withReserved reserved).run operations).2.used) :=
  funext fun _ => propext mem_used_run.symm

/-- In every run of operations each name handed out is the first free candidate. The loop that
looks for it, with its counter of 32 bits, ends there as long as so many turns can be counted; it
takes no more turns than there are names in the table. No name is handed out twice, nor after it was
reserved. -/
theorem unique_first_free_in_every_run (reserved : List String) (operations : List Operation) :
    ((withReserved reserved).run operations).1.Nodup ∧
    ∀ earlier base later, operations = earlier ++ .unique base :: later →
      ∃ name turns,
        ((withReserved reserved).run earlier).1 ++ [name] <+:
          ((withReserved reserved).run operations).1 ∧
        (∀ count found,
          SearchEnds ((withReserved reserved).run earlier).2.used base base 2 count found ↔
            turns + 2 ≤ lastSuffix ∧ count = turns ∧ found = name) ∧
        turns ≤ ((withReserved reserved).run earlier).2.used.dedup.length ∧
        ¬Taken reserved earlier name ∧ FirstFree (Taken reserved earlier) base name := by
  refine ⟨nodup_run, ?_⟩
  rintro earlier base later rfl
  obtain ⟨turns, hfound⟩ := ((withReserved reserved).run earlier).2.exists_foundAfter_pick base
  refine ⟨_, turns, ?_, hfound.searchEnds_iff, turns_le_of_used hfound.used, ?_, ?_⟩
  · rw [run_append]
    exact (List.prefix_append_right_inj _).mpr (List.prefix_append [_] _)
  · rw [taken_eq]
    exact hfound.free
  · rw [taken_eq]
    exact hfound.firstFree

def crowded : List String := "a" :: "a1" :: (List.range' 2 10).map (numbered "a")

/-- The second name of one base is here the twelfth of another. -/
theorem unique_first_free_past_other_base :
    ((withReserved crowded).run [.unique "a1", .unique "a"]).1 = ["a12", "a13"] ∧
    FirstFree (Taken crowded [.unique "a1"]) "a" "a13" := by
  have hbefore : ((withReserved crowded).run [.unique "a1"]).1 = ["a12"] := by decide +kernel
  have hrun : ((withReserved crowded).run [.unique "a1", .unique "a"]).1 = ["a12", "a13"] := by
    decide +kernel
  obtain ⟨name, -, hfirst, -, -, -, hfree⟩ :=
    (unique_first_free_in_every_run crowded _).2 [.unique "a1"] "a" [] rfl
  rw [List.singleton_append, hbefore, hrun] at hfirst
  have hname : name = "a13" := by simpa using hfirst
  exact ⟨hrun, hname ▸ hfree⟩

end Provision.Names.Table
