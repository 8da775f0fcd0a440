import Provision.Proofs.Names.Case

/-!
# Conventions applied twice

The words of a name hold its letters and digits and nothing else. A name that follows a convention
already is left as it is: its words may be others than those it was made from, yet each of them but
the first opens with an upper-case letter, and the first has no such letter unless it opens with
one.
-/

namespace Provision.Names

variable {c : Char} {text word name : List Char}

private theorem flatten_wordsFrom (previous : Option Char) (current text : List Char) :
    (wordsFrom previous current text).flatten = current ++ text.filter Char.isAlphanum := by
  induction text generalizing previous current with
  | nil =>
    rw [wordsFrom]
    split
    · next hempty => simp [List.isEmpty_iff.mp hempty]
    · simp
  | cons c rest ih =>
    rw [wordsFrom]
    cases hc : c.isAlphanum with
    | false =>
      cases current <;> simp [hc, ih]
    | true =>
      simp only [Bool.not_true, Bool.false_eq_true, if_false, List.filter_cons_of_pos hc]
      split <;> simp [ih]

theorem flatten_words (name : List Char) : (words name).flatten = name.filter Char.isAlphanum :=
  flatten_wordsFrom none [] name

theorem isUpper_toLower (h : c.isAlphanum = true) : c.toLower.isUpper = false :=
  of_isAlphanum h (by decide)

private theorem toLower_eq_self (h : c.isAlphanum = true) : c.isUpper = false → c.toLower = c :=
  of_isAlphanum h (by decide)

theorem isLower_toUpper (h : c.isAlphanum = true) : c.toUpper.isLower = false :=
  of_isAlphanum h (by decide)

theorem toUpper_eq_self (h : c.isAlphanum = true) : c.isLower = false → c.toUpper = c :=
  of_isAlphanum h (by decide)

private theorem opensWord_of_isUpper {previous : Char} (h : previous.isAlphanum = true)
    (hprevious : previous.isUpper = false) (hc : c.isUpper = true) (next : Option Char) :
    opensWord previous c next = true := by
  have hcase : previous.isUpper = false → (previous.isLower || previous.isDigit) = true :=
    of_isAlphanum h (by decide)
  simp [opensWord, hc, hcase hprevious]

def IsLowered (word : List Char) : Prop := ∀ c ∈ word, c.isAlphanum = true ∧ c.isUpper = false

theorem lowerWord_eq_self (h : IsLowered word) : lowerWord word = word := by
  refine (List.map_congr_left fun c hc => ?_).trans (List.map_id word)
  exact toLower_eq_self (h c hc).1 (h c hc).2

theorem isLowered_lowerWord (clean : ∀ c ∈ word, c.isAlphanum = true) :
    IsLowered (lowerWord word) := by
  intro c hc
  obtain ⟨d, hd, rfl⟩ := List.mem_map.mp hc
  exact ⟨(isAlphanum_cases (clean d hd)).1, isUpper_toLower (clean d hd)⟩

theorem wordsFrom_nil_cons (previous : Option Char) (hc : c.isAlphanum = true) (rest : List Char) :
    wordsFrom previous [] (c :: rest) = wordsFrom (some c) [c] rest := by
  simp [wordsFrom, hc]

private theorem words_guardStart (empty : List Char) (h : text ≠ []) :
    words (guardStart empty text) = words text := by
  obtain ⟨c, rest, rfl⟩ := List.exists_cons_of_ne_nil h
  rw [guardStart]
  split
  · next hdigit =>
    have hc : c.isAlphanum = true := Bool.or_eq_true_iff.mpr (.inr hdigit)
    have hunderscore : words ('_' :: c :: rest) = wordsFrom (some '_') [] (c :: rest) := rfl
    rw [hunderscore, words, wordsFrom_nil_cons _ hc, wordsFrom_nil_cons _ hc]
  · rfl

private theorem wordsFrom_of_isAlphanum {previous : Char} {current : List Char}
    (clean : ∀ c ∈ text, c.isAlphanum = true) (hcurrent : current ≠ []) :
    ∃ tail later, wordsFrom (some previous) current text = (current ++ tail) :: later ∧
      (∀ word ∈ later, capitalize word = word) ∧
      (previous.isAlphanum = true → previous.isUpper = false → IsLowered tail) := by
  induction text generalizing previous current with
  | nil => exact ⟨[], [], by simp [wordsFrom, hcurrent], by simp, by simp [IsLowered]⟩
  | cons c rest ih =>
    obtain ⟨hc, clean⟩ := List.forall_mem_cons.mp clean
    cases hopens : opensWord previous c rest.head? with
    | true =>
      obtain ⟨tail, later, heq, hlater, -⟩ := @ih c [c] clean (by simp)
      have hupper : c.isUpper = true := (Bool.and_eq_true_iff.mp hopens).1
      have hlower : c.isUpper = true → c.isLower = false := of_isAlphanum hc (by decide)
      refine ⟨[], ([c] ++ tail) :: later, ?_, ?_, by simp [IsLowered]⟩
      · simp [wordsFrom, hc, hopens, hcurrent, heq]
      · refine List.forall_mem_cons.mpr ⟨?_, hlater⟩
        simp [capitalize, toUpper_eq_self hc (hlower hupper)]
    | false =>
      obtain ⟨tail, later, heq, hlater, htail⟩ := @ih c (current ++ [c]) clean (by simp)
      refine ⟨c :: tail, later, ?_, hlater, fun hprevious hnot => ?_⟩
      · simp [wordsFrom, hc, hopens, heq]
      have hlowered : c.isUpper = false := by
        cases hupper : c.isUpper with
        | false => rfl
        | true => simp [opensWord_of_isUpper hprevious hnot hupper] at hopens
      exact List.forall_mem_cons.mpr ⟨⟨hc, hlowered⟩, htail hc hlowered⟩

theorem words_of_isAlphanum {rest : List Char} (clean : ∀ d ∈ c :: rest, d.isAlphanum = true) :
    ∃ tail later, words (c :: rest) = (c :: tail) :: later ∧
      (c :: tail) ++ later.flatten = c :: rest ∧
      later.map capitalize = later ∧ (c.isUpper = false → IsLowered (c :: tail)) := by
  obtain ⟨hc, hrest⟩ := List.forall_mem_cons.mp clean
  obtain ⟨tail, later, heq, hlater, htail⟩ :=
    @wordsFrom_of_isAlphanum rest c [c] hrest (by simp)
  have hwords : words (c :: rest) = (c :: tail) :: later := by
    rw [words, wordsFrom_nil_cons _ hc, heq, List.singleton_append]
  have hflatten := flatten_words (c :: rest)
  rw [hwords, List.filter_eq_self.mpr clean, List.flatten_cons] at hflatten
  refine ⟨tail, later, hwords, hflatten, ?_, fun hupper => ?_⟩
  · exact (List.map_congr_left hlater).trans (List.map_id later)
  · exact List.forall_mem_cons.mpr ⟨⟨hc, hupper⟩, htail hc hupper⟩

theorem guardStart_twice (join : List (List Char) → List Char) {empty : List Char}
    (hempty : guardStart empty (join (words empty)) = empty)
    (hjoin : join (words (join (words name))) = join (words name)) :
    guardStart empty (join (words (guardStart empty (join (words name))))) =
      guardStart empty (join (words name)) := by
  by_cases hnil : join (words name) = []
  · rw [hnil]
    exact hempty
  · rw [words_guardStart empty hnil, hjoin]

theorem wordsFrom_append_of_isLowered (previous : Option Char) (current : List Char)
    (h : IsLowered word) (rest : List Char) :
    ∃ last, wordsFrom previous current (word ++ rest) = wordsFrom last (current ++ word) rest := by
  induction word generalizing previous current with
  | nil => exact ⟨previous, by simp⟩
  | cons c word ih =>
    obtain ⟨⟨hc, hupper⟩, h⟩ := List.forall_mem_cons.mp h
    obtain ⟨last, heq⟩ := ih (some c) (current ++ [c]) h
    refine ⟨last, ?_⟩
    rw [List.append_assoc, List.singleton_append] at heq
    rw [← heq]
    simp [wordsFrom, hc, opensWord, hupper]

private theorem wordsFrom_intercalate {parts : List (List Char)} (previous : Option Char)
    (h : ∀ part ∈ parts, IsLowered part ∧ part ≠ []) :
    wordsFrom previous [] (List.intercalate ['_'] parts) = parts := by
  induction parts generalizing previous with
  | nil => rfl
  | cons part rest ih =>
    obtain ⟨⟨hpart, hne⟩, hrest⟩ := List.forall_mem_cons.mp h
    cases rest with
    | nil =>
      obtain ⟨last, heq⟩ := wordsFrom_append_of_isLowered previous [] hpart []
      simpa [wordsFrom, hne] using heq
    | cons next rest =>
      obtain ⟨last, heq⟩ := wordsFrom_append_of_isLowered previous [] hpart
        ('_' :: List.intercalate ['_'] (next :: rest))
      have hunderscore : '_'.isAlphanum = false := by decide
      rw [List.intercalate_cons_cons, List.append_assoc, List.singleton_append, heq, wordsFrom]
      simp [hunderscore, hne, ih _ hrest]

private theorem snake_snake (name : List Char) : snake (snake name) = snake name := by
  refine guardStart_twice (fun parts => List.intercalate ['_'] (parts.map lowerWord)) (by decide) ?_
  have hparts : ∀ part ∈ (words name).map lowerWord, IsLowered part ∧ part ≠ [] := by
    intro part hpart
    obtain ⟨word, hword, rfl⟩ := List.mem_map.mp hpart
    refine ⟨isLowered_lowerWord (isAlphanum_of_mem_words hword), ?_⟩
    simpa [lowerWord] using ne_nil_of_mem_wordsFrom hword
  have hlowered : ((words name).map lowerWord).map lowerWord = (words name).map lowerWord :=
    (List.map_congr_left fun part hpart => lowerWord_eq_self (hparts part hpart).1).trans
      (List.map_id _)
  rw [words, wordsFrom_intercalate none hparts, hlowered]

private theorem camel_camel (name : List Char) : camel (camel name) = camel name := by
  rw [camel_eq, camel_eq name]
  refine guardStart_twice joinCamel (by decide) ?_
  have clean : ∀ c ∈ joinCamel (words name), c.isAlphanum = true :=
    fun c hc => isAlphanum_of_mem_joinCamel hc
  cases hwords : words name with
  | nil => rfl
  | cons first rest =>
    rw [hwords] at clean
    obtain ⟨c, tail, rfl, hc⟩ := exists_cons_of_mem_words (hwords ▸ List.mem_cons_self)
    obtain ⟨tail', later, heq, hflatten, hlater, hlowered⟩ := words_of_isAlphanum clean
    calc joinCamel (words (joinCamel ((c :: tail) :: rest)))
        = lowerWord (c.toLower :: tail') ++ (later.map capitalize).flatten := congrArg joinCamel heq
      _ = c.toLower :: tail' ++ later.flatten := by
        rw [hlater, lowerWord_eq_self (hlowered (isUpper_toLower hc))]
      _ = joinCamel ((c :: tail) :: rest) := hflatten

private theorem pascal_pascal (name : List Char) : pascal (pascal name) = pascal name := by
  refine guardStart_twice (fun parts => (parts.map capitalize).flatten) (by decide) ?_
  have clean : ∀ c ∈ ((words name).map capitalize).flatten, c.isAlphanum = true :=
    fun c hc => isAlphanum_of_mem_flatten_capitalize (fun _ => isAlphanum_of_mem_words) hc
  cases hwords : words name with
  | nil => rfl
  | cons first rest =>
    rw [hwords] at clean
    obtain ⟨c, tail, rfl, hc⟩ := exists_cons_of_mem_words (hwords ▸ List.mem_cons_self)
    have hupper : c.toUpper.toUpper = c.toUpper :=
      toUpper_eq_self (isAlphanum_cases hc).2 (isLower_toUpper hc)
    obtain ⟨tail', later, heq, hflatten, hlater, -⟩ := words_of_isAlphanum clean
    calc ((words (((c :: tail) :: rest).map capitalize).flatten).map capitalize).flatten
        = c.toUpper.toUpper :: tail' ++ (later.map capitalize).flatten :=
          congrArg (fun parts => (parts.map capitalize).flatten) heq
      _ = c.toUpper :: tail' ++ later.flatten := by rw [hupper, hlater]
      _ = (((c :: tail) :: rest).map capitalize).flatten := hflatten

/-- The words of a name are its letters and digits cut into pieces, and a name that was put into a
convention is not changed by the same convention again. -/
theorem words_lossless_conventions_idempotent (name : String) :
    ((∀ word ∈ words name.toList, word ≠ []) ∧
      (words name.toList).flatten = name.toList.filter Char.isAlphanum) ∧
    snakeCase (snakeCase name) = snakeCase name ∧ camelCase (camelCase name) = camelCase name ∧
    pascalCase (pascalCase name) = pascalCase name := by
  refine ⟨⟨fun word hword => ne_nil_of_mem_wordsFrom hword, flatten_words _⟩, ?_, ?_, ?_⟩
  · rw [snakeCase, snakeCase, String.toList_ofList, snake_snake]
  · rw [camelCase, camelCase, String.toList_ofList, camel_camel]
  · rw [pascalCase, pascalCase, String.toList_ofList, pascal_pascal]

end Provision.Names
