import Mathlib.Data.List.Induction
import Mathlib.Data.List.Nodup
import Provision.Schema.Registry

/-!
# What a registry finds

A package whose tokens are all new is added whole. One that clashes is not added, but the tokens
ahead of the clash stay in the index and point at the slot that the next package takes: until then
they are out of range, and from then on they find what that package declares at the same position.
So a registry answers for exactly the declarations of its packages as long as every clash was at
the first token of a package, and `ofPackages` succeeds exactly when all tokens are different.
A token that is repeated within one package has no package yet to be reported with, and adding
that package is out of range.
-/

namespace Provision.Schema

def Declaration.token : Declaration → String
  | .resource schema => schema.token
  | .struct schema => schema.token
  | .function schema => schema.token

def Package.declarations (package : Package) : List Declaration :=
  package.resources.map .resource ++ package.types.map .struct ++ package.functions.map .function

def Package.tokens (package : Package) : List String :=
  package.declarations.map Declaration.token

def Package.ahead (package : Package) (token : String) : List String :=
  package.tokens.takeWhile (· != token)

variable {package : Package} {token : String} {place : Place} {declaration : Declaration}
  {registry after : Registry} {entries rest : List (String × Place)} {fault : DuplicateToken}
  {packages : List Package}

namespace Registry

def declarations (registry : Registry) : List Declaration :=
  registry.packages.flatMap Package.declarations

def tokens (registry : Registry) : List String := registry.packages.flatMap Package.tokens

theorem tokens_eq_map (registry : Registry) :
    registry.tokens = registry.declarations.map Declaration.token := by
  unfold tokens declarations
  rw [List.map_flatMap]
  rfl

/-! ## Places -/

theorem map_fst_places (slot : Nat) (package : Package) :
    (places slot package).map Prod.fst = package.tokens := by
  have first {α : Type} (schemas : List α) (token : α → String) (kind : DeclarationKind) :
      (schemas.zipIdx.map fun x => (token x.1, (⟨kind, slot, x.2⟩ : Place))).map Prod.fst =
        schemas.map token := by
    calc _ = (schemas.zipIdx.map Prod.fst).map token := by rw [List.map_map, List.map_map]; rfl
      _ = schemas.map token := by rw [List.zipIdx_map_fst]
  unfold places Package.tokens Package.declarations
  simp only [List.map_append, first, List.map_map]
  rfl

theorem slot_of_mem_places {slot : Nat} (entry : (token, place) ∈ places slot package) :
    place.slot = slot := by
  simp only [places, List.mem_append, List.mem_map, Prod.mk.injEq] at entry
  rcases entry with (⟨_, -, -, rfl⟩ | ⟨_, -, -, rfl⟩) | ⟨_, -, -, rfl⟩ <;> rfl

theorem declarationAt_of_mem_places {slot : Nat} (entry : (token, place) ∈ places slot package)
    (taken : registry.packages[slot]? = some package) :
    ∃ declaration, registry.declarationAt place = some declaration ∧
      declaration.token = token := by
  simp only [places, List.mem_append, List.mem_map, Prod.mk.injEq] at entry
  rcases entry with (⟨⟨schema, position⟩, hmem, rfl, rfl⟩ | ⟨⟨schema, position⟩, hmem, rfl, rfl⟩) |
    ⟨⟨schema, position⟩, hmem, rfl, rfl⟩
  all_goals
    have found := List.mk_mem_zipIdx_iff_getElem?.mp hmem
    simp [declarationAt, taken, found, Declaration.token]

theorem exists_package_of_declarationAt (found : registry.declarationAt place = some declaration) :
    ∃ package, registry.packages[place.slot]? = some package ∧
      declaration ∈ package.declarations := by
  simp only [declarationAt, Option.bind_eq_bind, Option.bind_eq_some_iff] at found
  obtain ⟨package, taken, found⟩ := found
  refine ⟨package, taken, ?_⟩
  cases hkind : place.kind <;> rw [hkind] at found <;>
    obtain ⟨schema, present, rfl⟩ := Option.map_eq_some_iff.mp found <;>
    simp [Package.declarations, List.mem_of_getElem? present]

theorem mem_declarations_of_declarationAt
    (found : registry.declarationAt place = some declaration) :
    declaration ∈ registry.declarations := by
  obtain ⟨package, taken, declared⟩ := exists_package_of_declarationAt found
  exact List.mem_flatMap.mpr ⟨package, List.mem_of_getElem? taken, declared⟩

theorem declarationAt_eq_none (free : registry.packages.length ≤ place.slot) :
    registry.declarationAt place = none := by
  simp [declarationAt, List.getElem?_eq_none free]

theorem declarationAt_append (behind : after.packages = registry.packages ++ [package])
    (found : registry.declarationAt place = some declaration) :
    after.declarationAt place = some declaration := by
  have taken : place.slot < registry.packages.length := by
    by_contra free
    rw [declarationAt_eq_none (Nat.le_of_not_lt free)] at found
    contradiction
  simpa only [declarationAt, behind, List.getElem?_append_left taken] using found

/-! ## Entering tokens -/

def withEntries (registry : Registry) (entries : List (String × Place)) : Registry :=
  { registry with index := entries.reverse ++ registry.index }

def extended (registry : Registry) (package : Package) : Registry :=
  { registry.withEntries (places registry.packages.length package) with
    packages := registry.packages ++ [package] }

theorem tokens_extended :
    (registry.extended package).tokens = registry.tokens ++ package.tokens := by
  simp [tokens, extended]

structure Fresh (registry : Registry) (entries : List (String × Place)) : Prop where
  distinct : (entries.map Prod.fst).Nodup
  absent : ∀ token ∈ entries.map Prod.fst, registry.index.lookup token = none

theorem lookup_withEntries_of_notMem (other : token ∉ entries.map Prod.fst) :
    (registry.withEntries entries).index.lookup token = registry.index.lookup token := by
  have none_of_entries : entries.reverse.lookup token = none := by
    rw [List.lookup_eq_none_iff]
    intro entry hentry
    have hne : token ≠ entry.1 := by
      rintro rfl
      exact other (List.mem_map_of_mem (List.mem_reverse.mp hentry))
    simpa using hne
  simp [withEntries, List.lookup_append, none_of_entries]

theorem lookup_withEntries_of_mem (registry : Registry) (entered : token ∈ entries.map Prod.fst) :
    ∃ place, (token, place) ∈ entries ∧
      (registry.withEntries entries).index.lookup token = some place := by
  cases found : entries.reverse.lookup token with
  | none =>
    obtain ⟨entry, hentry, rfl⟩ := List.mem_map.mp entered
    have absent := List.lookup_eq_none_iff.mp found entry (List.mem_reverse.mpr hentry)
    simp at absent
  | some place =>
    obtain ⟨before, after, split, -⟩ := List.lookup_eq_some_iff.mp found
    have hmem : (token, place) ∈ entries.reverse := by simp [split]
    exact ⟨place, List.mem_reverse.mp hmem, by simp [withEntries, List.lookup_append, found]⟩

theorem withEntries_cons (registry : Registry) (token : String) (place : Place)
    (entries : List (String × Place)) :
    registry.withEntries ((token, place) :: entries) =
      { registry with index := (token, place) :: registry.index }.withEntries entries := by
  simp [withEntries]

theorem fresh_cons :
    registry.Fresh ((token, place) :: entries) ↔ registry.index.lookup token = none ∧
      { registry with index := (token, place) :: registry.index }.Fresh entries := by
  constructor
  · rintro ⟨distinct, absent⟩
    rw [List.map_cons, List.nodup_cons] at distinct
    refine ⟨absent token (by simp), distinct.2, fun other hother => ?_⟩
    have hne : other ≠ token := fun same => distinct.1 (same ▸ hother)
    rw [List.lookup_cons, beq_eq_false_iff_ne.mpr hne]
    exact absent other (List.mem_cons_of_mem _ hother)
  · rintro ⟨new, distinct, absent⟩
    have hne : ∀ other ∈ entries.map Prod.fst, other ≠ token := by
      rintro other hother rfl
      simpa using absent other hother
    refine ⟨List.nodup_cons.mpr ⟨fun hmem => hne token hmem rfl, distinct⟩, ?_⟩
    intro other hother
    rcases List.mem_cons.mp hother with rfl | hother
    · exact new
    · have later := absent other hother
      rwa [List.lookup_cons, beq_eq_false_iff_ne.mpr (hne other hother)] at later

theorem enter_append (fresh : registry.Fresh entries) (package : String)
    (rest : List (String × Place)) :
    registry.enter package (entries ++ rest) =
      (registry.withEntries entries).enter package rest := by
  induction entries generalizing registry with
  | nil => rfl
  | cons entry entries ih =>
    obtain ⟨token, place⟩ := entry
    obtain ⟨new, fresh⟩ := fresh_cons.mp fresh
    rw [withEntries_cons, ← ih fresh]
    simp only [List.cons_append, enter, new]

theorem fresh_or_clash (registry : Registry) (entries : List (String × Place)) :
    registry.Fresh entries ∨ ∃ entered token place rest existing,
      entries = entered ++ (token, place) :: rest ∧ registry.Fresh entered ∧
        (registry.withEntries entered).index.lookup token = some existing := by
  induction entries generalizing registry with
  | nil => exact .inl ⟨List.nodup_nil, by simp⟩
  | cons entry entries ih =>
    obtain ⟨token, place⟩ := entry
    cases found : registry.index.lookup token with
    | some existing =>
      exact .inr ⟨[], token, place, entries, existing, rfl, ⟨List.nodup_nil, by simp⟩, found⟩
    | none =>
      rcases ih { registry with index := (token, place) :: registry.index } with
        fresh | ⟨entered, other, otherPlace, rest, existing, rfl, fresh, clashes⟩
      · exact .inl (fresh_cons.mpr ⟨found, fresh⟩)
      · refine .inr ⟨(token, place) :: entered, other, otherPlace, rest, existing, rfl,
          fresh_cons.mpr ⟨found, fresh⟩, ?_⟩
        rwa [withEntries_cons]

theorem add_of_fresh (fresh : registry.Fresh (places registry.packages.length package)) :
    registry.add package = (none, registry.extended package) := by
  have entered := enter_append fresh package.name []
  rw [List.append_nil] at entered
  rw [add, entered]
  rfl

theorem add_of_clash {entered : List (String × Place)} {existing : Place}
    (split : places registry.packages.length package = entered ++ (token, place) :: rest)
    (fresh : registry.Fresh entered)
    (clashes : (registry.withEntries entered).index.lookup token = some existing) :
    registry.add package =
      (some (registry.clash package.name token existing), registry.withEntries entered) := by
  rw [add, split, enter_append fresh, enter, clashes]
  rfl

/-! ## Registries after additions -/

/-- An index holds the tokens of the packages and those left behind by packages that clashed; the
former lead to their declarations. -/
structure Indexed (registry : Registry) (left : List String) : Prop where
  distinct : registry.tokens.Nodup
  entered : ∀ token, registry.index.lookup token = none ↔ token ∉ registry.tokens ∧ token ∉ left
  apart : ∀ token ∈ left, token ∉ registry.tokens
  placed : ∀ token place, registry.index.lookup token = some place → token ∈ registry.tokens →
    ∃ declaration, registry.declarationAt place = some declaration ∧ declaration.token = token

theorem indexed_empty : Indexed {} [] where
  distinct := List.nodup_nil
  entered token := by simp [tokens]
  apart := by simp
  placed := by simp

section

variable {left : List String} (indexed : registry.Indexed left)
include indexed

theorem Indexed.of_lookup_eq_none (absent : registry.index.lookup token = none) :
    token ∉ registry.tokens ∧ token ∉ left :=
  (indexed.entered token).mp absent

theorem Indexed.exists_place (known : token ∈ registry.tokens) :
    ∃ place, registry.index.lookup token = some place :=
  Option.ne_none_iff_exists'.mp fun absent => (indexed.of_lookup_eq_none absent).1 known

theorem Indexed.extended (fresh : registry.Fresh (places registry.packages.length package)) :
    (registry.extended package).Indexed left := by
  obtain ⟨distinct, absent⟩ := fresh
  rw [map_fst_places] at distinct absent
  have new (token : String) (h : token ∈ package.tokens) :=
    indexed.of_lookup_eq_none (absent token h)
  have taken : (registry.extended package).packages[registry.packages.length]? = some package := by
    simp [Registry.extended]
  have later (token : String) (h : token ∉ package.tokens) :
      (registry.extended package).index.lookup token = registry.index.lookup token :=
    lookup_withEntries_of_notMem (map_fst_places _ package ▸ h)
  have entry (token : String) (h : token ∈ package.tokens) :
      ∃ place, (token, place) ∈ places registry.packages.length package ∧
        (registry.extended package).index.lookup token = some place :=
    lookup_withEntries_of_mem registry (map_fst_places _ package ▸ h)
  constructor
  case distinct =>
    rw [tokens_extended, List.nodup_append]
    refine ⟨indexed.distinct, distinct, ?_⟩
    rintro token hold _ hnew rfl
    exact (new token hnew).1 hold
  case entered =>
    intro token
    rw [tokens_extended, List.mem_append]
    by_cases h : token ∈ package.tokens
    · obtain ⟨place, -, found⟩ := entry token h
      simp [found, h]
    · rw [later token h, indexed.entered]
      simp [h]
  case apart =>
    intro token hleft hmem
    rw [tokens_extended, List.mem_append] at hmem
    rcases hmem with hold | hnew
    · exact indexed.apart token hleft hold
    · exact (new token hnew).2 hleft
  case placed =>
    intro token place found known
    rw [tokens_extended, List.mem_append] at known
    by_cases h : token ∈ package.tokens
    · obtain ⟨other, hentry, hfound⟩ := entry token h
      obtain rfl : other = place := Option.some.inj (hfound.symm.trans found)
      exact declarationAt_of_mem_places hentry taken
    · rw [later token h] at found
      obtain ⟨declaration, hat, htoken⟩ := indexed.placed token place found (known.resolve_right h)
      exact ⟨declaration, declarationAt_append rfl hat, htoken⟩

theorem Indexed.withEntries (fresh : registry.Fresh entries) :
    (registry.withEntries entries).Indexed (left ++ entries.map Prod.fst) := by
  have new (token : String) (h : token ∈ entries.map Prod.fst) :=
    indexed.of_lookup_eq_none (fresh.absent token h)
  constructor
  case distinct => exact indexed.distinct
  case entered =>
    intro token
    by_cases h : token ∈ entries.map Prod.fst
    · obtain ⟨place, -, found⟩ := lookup_withEntries_of_mem registry h
      simp only [found, List.mem_append, h, or_true, not_true, and_false, reduceCtorEq]
    · rw [lookup_withEntries_of_notMem h, indexed.entered]
      simp only [List.mem_append, h, or_false]
      rfl
  case apart =>
    intro token hmem
    rcases List.mem_append.mp hmem with hleft | hnew
    · exact indexed.apart token hleft
    · exact (new token hnew).1
  case placed =>
    intro token place found known
    have h : token ∉ entries.map Prod.fst := fun hmem => (new token hmem).1 known
    rw [lookup_withEntries_of_notMem h] at found
    exact indexed.placed token place found known

theorem Indexed.find_eq_missing :
    registry.find token = .missing ↔ token ∉ registry.tokens ∧ token ∉ left := by
  rw [← indexed.entered, find]
  cases registry.index.lookup token with
  | none => simp
  | some place =>
    simp only [reduceCtorEq, iff_false]
    split <;> simp

theorem Indexed.find_eq_declared (kept : token ∉ left) :
    registry.find token = .declared declaration ↔
      declaration ∈ registry.declarations ∧ declaration.token = token := by
  have unique {other : Declaration} (hother : other ∈ registry.declarations)
      (hdeclared : declaration ∈ registry.declarations) (same : other.token = declaration.token) :
      other = declaration :=
    List.inj_on_of_nodup_map (registry.tokens_eq_map ▸ indexed.distinct) hother hdeclared same
  cases found : registry.index.lookup token with
  | none =>
    have absent := (indexed.of_lookup_eq_none found).1
    rw [tokens_eq_map] at absent
    simp only [find, found, reduceCtorEq, false_iff]
    rintro ⟨hmem, rfl⟩
    exact absent (List.mem_map_of_mem hmem)
  | some place =>
    have known : token ∈ registry.tokens := by
      by_contra absent
      simp [(indexed.entered token).mpr ⟨absent, kept⟩] at found
    obtain ⟨other, hat, rfl⟩ := indexed.placed token place found known
    simp only [find, found, hat, Found.declared.injEq]
    constructor
    · rintro rfl
      exact ⟨mem_declarations_of_declarationAt hat, rfl⟩
    · rintro ⟨hmem, same⟩
      exact unique (mem_declarations_of_declarationAt hat) hmem same.symm

theorem Indexed.find_ne_outOfRange (kept : token ∉ left) : registry.find token ≠ .outOfRange := by
  by_cases known : token ∈ registry.tokens
  · obtain ⟨declaration, hmem, htoken⟩ := List.mem_map.mp (registry.tokens_eq_map ▸ known)
    simp [(indexed.find_eq_declared kept).mpr ⟨hmem, htoken⟩]
  · simp [indexed.find_eq_missing.mpr ⟨known, kept⟩]

theorem Indexed.token_ne_of_find (stray : token ∈ left)
    (found : registry.find token = .declared declaration) : declaration.token ≠ token := by
  rintro rfl
  refine indexed.apart _ stray ?_
  rw [tokens_eq_map]
  refine List.mem_map_of_mem ?_
  unfold find at found
  split at found
  · contradiction
  · split at found
    · next hat => exact Found.declared.inj found ▸ mem_declarations_of_declarationAt hat
    · contradiction

end

/-! ## A package that clashes -/

private theorem tokens_of_split {entered : List (String × Place)}
    (split : places registry.packages.length package = entered ++ (token, place) :: rest) :
    package.tokens = entered.map Prod.fst ++ token :: rest.map Prod.fst := by
  rw [← map_fst_places registry.packages.length package, split]
  simp

theorem clash_of_mem {entered : List (String × Place)}
    (split : places registry.packages.length package = entered ++ rest)
    (repeated : token ∈ entered.map Prod.fst) :
    ∃ existing, (registry.withEntries entered).index.lookup token = some existing ∧
      existing.slot = registry.packages.length := by
  obtain ⟨existing, hmem, found⟩ := lookup_withEntries_of_mem registry repeated
  have inPackage : (token, existing) ∈ places registry.packages.length package :=
    split ▸ List.mem_append_left rest hmem
  exact ⟨existing, found, slot_of_mem_places inPackage⟩

theorem exists_entered_of_duplicate
    (refused : registry.add package = (some (.duplicate fault), after)) :
    ∃ entered rest, places registry.packages.length package = entered ++ rest ∧
      entered.map Prod.fst = package.ahead fault.token ∧ registry.Fresh entered ∧
        after = registry.withEntries entered ∧ fault.token ∈ package.tokens := by
  rcases registry.fresh_or_clash (places registry.packages.length package) with
    fresh | ⟨entered, token, place, rest, existing, split, fresh, clashes⟩
  · rw [add_of_fresh fresh] at refused
    simp at refused
  · rw [add_of_clash split fresh clashes, Prod.mk.injEq, Option.some.injEq] at refused
    obtain ⟨hclash, rfl⟩ := refused
    have tokens_eq := tokens_of_split split
    cases taken : registry.packages[existing.slot]? with
    | none => simp [clash, taken] at hclash
    | some first =>
      rw [clash, taken, AddFault.duplicate.injEq] at hclash
      subst hclash
      have once : token ∉ entered.map Prod.fst := by
        intro repeated
        obtain ⟨other, found, hslot⟩ := clash_of_mem split repeated
        obtain rfl : other = existing := Option.some.inj (found.symm.trans clashes)
        simp [hslot] at taken
      refine ⟨entered, _, split, ?_, fresh, rfl, by simp [tokens_eq]⟩
      rw [Package.ahead, tokens_eq, List.takeWhile_append_of_pos, List.takeWhile_cons]
      · simp
      · intro other hother
        refine bne_iff_ne.mpr ?_
        rintro rfl
        exact once hother

theorem Indexed.refused {left : List String} (indexed : registry.Indexed left)
    (refused : registry.add package = (some (.duplicate fault), after)) :
    after.Indexed (left ++ package.ahead fault.token) := by
  obtain ⟨entered, rest, -, hahead, fresh, rfl, -⟩ := exists_entered_of_duplicate refused
  exact hahead ▸ indexed.withEntries fresh

theorem Indexed.added {left : List String} (indexed : registry.Indexed left)
    (added : registry.add package = (none, after)) : after.Indexed left := by
  rcases registry.fresh_or_clash (places registry.packages.length package) with
    fresh | ⟨entered, token, place, rest, existing, split, fresh, clashes⟩
  · rw [add_of_fresh fresh, Prod.mk.injEq] at added
    exact added.2 ▸ indexed.extended fresh
  · simp [add_of_clash split fresh clashes] at added

theorem find_of_duplicate (refused : registry.add package = (some (.duplicate fault), after))
    (token : String) :
    after.find token =
      if token ∈ package.ahead fault.token then .outOfRange else registry.find token := by
  obtain ⟨entered, rest, split, hahead, -, rfl, -⟩ := exists_entered_of_duplicate refused
  rw [← hahead]
  split
  · next repeated =>
    obtain ⟨existing, found, hslot⟩ := clash_of_mem split repeated
    have none_at : (registry.withEntries entered).declarationAt existing = none :=
      declarationAt_eq_none (Nat.le_of_eq hslot.symm)
    simp [find, found, none_at]
  · next h => simp only [find, lookup_withEntries_of_notMem h]; rfl

theorem find_of_mem_ahead (refused : registry.add package = (some (.duplicate fault), after))
    (h : token ∈ package.ahead fault.token) : registry.find token = .missing := by
  obtain ⟨entered, rest, -, hahead, fresh, -, -⟩ := exists_entered_of_duplicate refused
  simp [find, fresh.absent token (hahead ▸ h)]

private theorem ahead_eq_nil_iff (declared : token ∈ package.tokens) :
    package.ahead token = [] ↔ package.tokens.head? = some token := by
  unfold Package.ahead
  cases htokens : package.tokens with
  | nil => simp [htokens] at declared
  | cons first rest => by_cases h : first = token <;> simp [h]

/-- A registry that additions lead to from the empty one, with the tokens that packages entered
ahead of a clash. -/
inductive Reached : Registry → List String → Prop where
  | empty : Reached {} []
  | added {registry after : Registry} {left : List String} {package : Package} :
      Reached registry left → registry.add package = (none, after) → Reached after left
  | refused {registry after : Registry} {left : List String} {package : Package}
      {fault : DuplicateToken} :
      Reached registry left → registry.add package = (some (.duplicate fault), after) →
      Reached after (left ++ package.ahead fault.token)

theorem Reached.indexed {left : List String} (reached : Reached registry left) :
    registry.Indexed left := by
  induction reached with
  | empty => exact indexed_empty
  | added _ added ih => exact ih.added added
  | refused _ refused ih => exact ih.refused refused

/-- A clash changes no package, and changes no answer exactly when it is at the first token of the
package; each token ahead of it stops being missing. Tokens that no clash left behind are answered
for by the packages, and the others never by a declaration of theirs. -/
theorem find_after_additions {registry : Registry} {left : List String}
    (reached : Reached registry left) :
    (∀ package fault after, registry.add package = (some (.duplicate fault), after) →
      after.packageNames = registry.packageNames ∧
      ((∀ token, after.find token = registry.find token) ↔
        package.tokens.head? = some fault.token) ∧
      ∀ token, if token ∈ package.ahead fault.token
        then registry.find token = .missing ∧ after.find token = .outOfRange
        else after.find token = registry.find token) ∧
    (∀ token, token ∉ left → registry.find token ≠ .outOfRange ∧
      ∀ declaration, registry.find token = .declared declaration ↔
        declaration ∈ registry.declarations ∧ declaration.token = token) ∧
    ∀ token ∈ left, registry.find token ≠ .missing ∧
      ∀ declaration, registry.find token = .declared declaration → declaration.token ≠ token := by
  have indexed := reached.indexed
  refine ⟨fun package fault after refused => ?_, fun token kept => ?_, fun token stray => ?_⟩
  · have answers := find_of_duplicate refused
    have missing {token : String} (h : token ∈ package.ahead fault.token) :=
      find_of_mem_ahead refused h
    obtain ⟨entered, rest, -, -, -, rfl, declared⟩ := exists_entered_of_duplicate refused
    refine ⟨rfl, ?_, fun token => ?_⟩
    · rw [← ahead_eq_nil_iff declared, List.eq_nil_iff_forall_not_mem]
      constructor
      · intro same token h
        have moved := same token
        rw [answers, if_pos h, missing h] at moved
        contradiction
      · intro none_ahead token
        rw [answers, if_neg (none_ahead token)]
    · rw [answers]
      split
      · next h => exact ⟨missing h, rfl⟩
      · rfl
  · exact ⟨indexed.find_ne_outOfRange kept, fun declaration => indexed.find_eq_declared kept⟩
  · refine ⟨fun found => ?_, fun declaration found => indexed.token_ne_of_find stray found⟩
    exact (indexed.find_eq_missing.mp found).2 stray

def plainPackage (name : String) (tokens : List String) : Package :=
  ⟨name, tokens.map (⟨·, [], []⟩), [], []⟩

def bucketRegistry : Registry := (add {} (plainPackage "aws" ["aws:s3:Bucket"])).2

def strayRegistry : Registry :=
  (bucketRegistry.add (plainPackage "local" ["local:fs:Disk", "aws:s3:Bucket"])).2

def takenRegistry : Registry := (strayRegistry.add (plainPackage "gcp" ["gcp:net:Route"])).2

theorem reached_takenRegistry : Reached takenRegistry ["local:fs:Disk"] := by
  have added : add {} (plainPackage "aws" ["aws:s3:Bucket"]) = (none, bucketRegistry) := rfl
  have refused : bucketRegistry.add (plainPackage "local" ["local:fs:Disk", "aws:s3:Bucket"]) =
      (some (.duplicate ⟨"aws:s3:Bucket", "aws", "local"⟩), strayRegistry) := rfl
  have taken : strayRegistry.add (plainPackage "gcp" ["gcp:net:Route"]) = (none, takenRegistry) :=
    rfl
  exact .added (.refused (.added .empty added) refused) taken

theorem find_after_additions_takenRegistry :
    Reached takenRegistry ["local:fs:Disk"] ∧ "aws:s3:Bucket" ∉ ["local:fs:Disk"] ∧
      takenRegistry.find "aws:s3:Bucket" = .declared (.resource ⟨"aws:s3:Bucket", [], []⟩) ∧
      takenRegistry.find "local:fs:Disk" ≠ .missing := by
  obtain ⟨-, kept, stray⟩ := find_after_additions reached_takenRegistry
  refine ⟨reached_takenRegistry, by decide, ?_, (stray _ (by decide)).1⟩
  exact ((kept _ (by decide)).2 _).mpr ⟨List.mem_cons_self, rfl⟩

/-- The disk of a package that was refused is out of range, and then another package's route. -/
theorem find_disk_takenRegistry :
    bucketRegistry.add (plainPackage "local" ["local:fs:Disk", "aws:s3:Bucket"]) =
        (some (.duplicate ⟨"aws:s3:Bucket", "aws", "local"⟩), strayRegistry) ∧
      bucketRegistry.find "local:fs:Disk" = .missing ∧
      strayRegistry.find "local:fs:Disk" = .outOfRange ∧
      takenRegistry.find "local:fs:Disk" = .declared (.resource ⟨"gcp:net:Route", [], []⟩) :=
  ⟨rfl, rfl, rfl, rfl⟩

/-! ## Whole lists of packages -/

/-- The first token that packages declare again: all ahead of it are different. -/
structure FirstRepeat (packages before : List Package) (package : Package)
    (entered : List String) (token : String) : Prop where
  reached : before ++ [package] <+: packages
  next : entered ++ [token] <+: package.tokens
  distinct : (before.flatMap Package.tokens ++ entered).Nodup
  again : token ∈ before.flatMap Package.tokens ++ entered

private theorem exists_again {known tokens : List String} (distinct : known.Nodup)
    (repeats : ¬ (known ++ tokens).Nodup) :
    ∃ entered token, entered ++ [token] <+: tokens ∧ (known ++ entered).Nodup ∧
      token ∈ known ++ entered := by
  induction tokens using List.reverseRecOn with
  | nil => exact absurd (by simpa using distinct) repeats
  | append_singleton entered token ih =>
    by_cases h : (known ++ entered).Nodup
    · refine ⟨entered, token, List.prefix_rfl, h, ?_⟩
      by_contra new
      have further := h.concat new
      rw [List.concat_eq_append, List.append_assoc] at further
      exact repeats further
    · obtain ⟨ahead, other, hprefix, hdistinct, hagain⟩ := ih h
      exact ⟨ahead, other, hprefix.trans (List.prefix_append entered [token]), hdistinct, hagain⟩

theorem exists_firstRepeat (repeats : ¬ (packages.flatMap Package.tokens).Nodup) :
    ∃ before package entered token, FirstRepeat packages before package entered token := by
  induction packages using List.reverseRecOn with
  | nil => exact absurd List.nodup_nil repeats
  | append_singleton before package ih =>
    by_cases h : (before.flatMap Package.tokens).Nodup
    · rw [List.flatMap_append, List.flatMap_singleton] at repeats
      obtain ⟨entered, token, next, distinct, again⟩ := exists_again h repeats
      exact ⟨before, package, entered, token, List.prefix_rfl, next, distinct, again⟩
    · obtain ⟨ahead, other, entered, token, found⟩ := ih h
      exact ⟨ahead, other, entered, token,
        { found with reached := found.reached.trans (List.prefix_append before [package]) }⟩

private theorem addAll_append (registry : Registry) (packages rest : List Package) :
    registry.addAll (packages ++ rest) = (registry.addAll packages).bind (·.addAll rest) := by
  induction packages generalizing registry with
  | nil => rfl
  | cons package packages ih =>
    simp only [List.cons_append, addAll]
    split
    · rfl
    · exact ih _

theorem addAll_of_nodup (indexed : registry.Indexed [])
    (distinct : (registry.tokens ++ packages.flatMap Package.tokens).Nodup) :
    ∃ after, registry.addAll packages = .ok after ∧ after.Indexed [] ∧
      after.packages = registry.packages ++ packages := by
  induction packages generalizing registry with
  | nil => exact ⟨registry, rfl, indexed, by simp⟩
  | cons package packages ih =>
    rw [List.flatMap_cons, ← List.append_assoc] at distinct
    have fresh : registry.Fresh (places registry.packages.length package) := by
      have ahead := List.nodup_append.mp (List.nodup_append.mp distinct).1
      refine ⟨map_fst_places _ package ▸ ahead.2.1, fun token hmem => ?_⟩
      rw [map_fst_places] at hmem
      exact (indexed.entered token).mpr ⟨fun known => ahead.2.2 token known token hmem rfl, by simp⟩
    obtain ⟨after, hadd, hindexed, hpackages⟩ :=
      ih (indexed.extended fresh) (tokens_extended ▸ distinct)
    refine ⟨after, ?_, hindexed, by simp [hpackages, extended]⟩
    rw [addAll, add_of_fresh fresh]
    exact hadd

theorem ofPackages_of_firstRepeat {before : List Package} {entered : List String}
    (repeats : FirstRepeat packages before package entered token) :
    (token ∈ entered → ofPackages packages = .error (.outOfRange before.length before.length)) ∧
    (token ∉ entered → ∃ earlier ∈ before, token ∈ earlier.tokens ∧
      ofPackages packages = .error (.duplicate ⟨token, earlier.name, package.name⟩)) := by
  obtain ⟨⟨later, rfl⟩, ⟨rest, next⟩, distinct, again⟩ := repeats
  obtain ⟨ahead, -, -⟩ := List.nodup_append.mp distinct
  obtain ⟨registry, hbefore, indexed, hpackages⟩ := addAll_of_nodup indexed_empty ahead
  have hpackages : registry.packages = before := hpackages
  have known : registry.tokens = before.flatMap Package.tokens := by rw [tokens, hpackages]
  rw [← known] at distinct again
  have places_eq : (places registry.packages.length package).map Prod.fst =
      entered ++ (token :: rest) := by
    rw [map_fst_places, ← next, List.append_assoc]
    rfl
  obtain ⟨entries, tail, split, rfl, htail⟩ := List.map_eq_append_iff.mp places_eq
  obtain ⟨⟨first, place⟩, tail, rfl, hfirst, -⟩ := List.map_eq_cons_iff.mp htail
  obtain rfl : token = first := hfirst.symm
  obtain ⟨-, apart, disjoint⟩ := List.nodup_append.mp distinct
  have fresh : registry.Fresh entries := by
    refine ⟨apart, fun other hmem => (indexed.entered other).mpr ⟨fun hknown => ?_, by simp⟩⟩
    exact disjoint other hknown other hmem rfl
  have stops {existing : Place}
      (clashes : (registry.withEntries entries).index.lookup token = some existing) :
      ofPackages (before ++ [package] ++ later) =
        .error (registry.clash package.name token existing) := by
    rw [ofPackages, List.append_assoc, addAll_append, hbefore]
    simp only [Except.bind, List.singleton_append, addAll, add_of_clash split fresh clashes]
  constructor
  · intro repeated
    obtain ⟨existing, found, hslot⟩ := clash_of_mem split repeated
    rw [stops found, clash, hslot, List.getElem?_eq_none (Nat.le_refl _), hpackages]
  · intro once
    have hknown : token ∈ registry.tokens := (List.mem_append.mp again).resolve_right once
    obtain ⟨existing, found⟩ := indexed.exists_place hknown
    obtain ⟨declaration, hat, htoken⟩ := indexed.placed token existing found hknown
    obtain ⟨earlier, taken, hdeclared⟩ := exists_package_of_declarationAt hat
    refine ⟨earlier, hpackages ▸ List.mem_of_getElem? taken,
      htoken ▸ List.mem_map_of_mem hdeclared, ?_⟩
    rw [stops ((lookup_withEntries_of_notMem once).trans found), clash, taken]

/-- A registry can be made of packages exactly when all their tokens are different, and then finds
their declarations and nothing else. Otherwise the first token that is declared again is reported
with the two packages that declare it, unless it is declared again by the package itself: then the
range is left. -/
theorem ofPackages_outcome (packages : List Package) :
    ((∃ registry, ofPackages packages = .ok registry) ↔
      (packages.flatMap Package.tokens).Nodup) ∧
    (∀ registry, ofPackages packages = .ok registry → ∀ token,
      (∀ declaration, registry.find token = .declared declaration ↔
        declaration ∈ packages.flatMap Package.declarations ∧ declaration.token = token) ∧
      (registry.find token = .missing ↔ token ∉ packages.flatMap Package.tokens) ∧
      registry.find token ≠ .outOfRange) ∧
    (∀ fault, ofPackages packages = .error (.duplicate fault) →
      ∃ before package entered, FirstRepeat packages before package entered fault.token ∧
        fault.token ∉ entered ∧ fault.second = package.name ∧
          ∃ earlier ∈ before, fault.token ∈ earlier.tokens ∧ fault.first = earlier.name) ∧
    ((∃ slot count, ofPackages packages = .error (.outOfRange slot count)) ↔
      ∃ before package entered token, FirstRepeat packages before package entered token ∧
        token ∈ entered) := by
  by_cases distinct : (packages.flatMap Package.tokens).Nodup
  · obtain ⟨registry, hok, indexed, rfl⟩ := addAll_of_nodup indexed_empty distinct
    have hok : ofPackages registry.packages = .ok registry := hok
    refine ⟨iff_of_true ⟨registry, hok⟩ distinct, fun other hother token => ?_, ?_, ?_⟩
    · obtain rfl : other = registry := Except.ok.inj (hother.symm.trans hok)
      refine ⟨fun declaration => indexed.find_eq_declared List.not_mem_nil, ?_,
        indexed.find_ne_outOfRange List.not_mem_nil⟩
      exact indexed.find_eq_missing.trans (and_iff_left List.not_mem_nil)
    · simp [hok]
    · refine iff_of_false (by simp [hok]) ?_
      rintro ⟨before, package, entered, token, repeats, repeated⟩
      simp [(ofPackages_of_firstRepeat repeats).1 repeated] at hok
  · obtain ⟨before, package, entered, token, repeats⟩ := exists_firstRepeat distinct
    by_cases repeated : token ∈ entered
    · have aborts := (ofPackages_of_firstRepeat repeats).1 repeated
      refine ⟨iff_of_false (by simp [aborts]) distinct, by simp [aborts], by simp [aborts], ?_⟩
      exact iff_of_true ⟨_, _, aborts⟩ ⟨before, package, entered, token, repeats, repeated⟩
    · obtain ⟨earlier, hearlier, hdeclares, reports⟩ :=
        (ofPackages_of_firstRepeat repeats).2 repeated
      refine ⟨iff_of_false (by simp [reports]) distinct, by simp [reports], ?_, ?_⟩
      · rintro fault hfault
        obtain rfl : _ = fault :=
          AddFault.duplicate.inj (Except.error.inj (reports.symm.trans hfault))
        exact ⟨before, package, entered, repeats, repeated, rfl, earlier, hearlier, hdeclares, rfl⟩
      · refine iff_of_false (by simp [reports]) ?_
        rintro ⟨_, _, _, _, others, again⟩
        simp [(ofPackages_of_firstRepeat others).1 again] at reports

theorem ofPackages_repeatedBucket :
    ofPackages [plainPackage "aws" ["aws:s3:Bucket", "aws:s3:Bucket"]] =
      .error (.outOfRange 0 0) :=
  rfl

end Registry

end Provision.Schema
