import Provision.Duration

/-!
# Durations

The texts that are durations, and their seconds: saturation at each term and at each partial sum
comes to the same as saturation of the whole sum.
-/

namespace Provision.Duration

inductive TimeUnit where
  | hour
  | minute
  | second

namespace TimeUnit

def letter : TimeUnit → Char
  | hour => 'h'
  | minute => 'm'
  | second => 's'

def seconds : TimeUnit → Nat
  | hour => 3600
  | minute => 60
  | second => 1

private theorem isDigit_letter (unit : TimeUnit) : unit.letter.isDigit = false := by
  cases unit <;> rfl

theorem unitSeconds?_eq_some_iff {c : Char} {factor : Nat} :
    unitSeconds? c = some factor ↔ ∃ unit : TimeUnit, c = unit.letter ∧ factor = unit.seconds := by
  constructor
  · intro h
    unfold unitSeconds? at h
    split at h
    · exact ⟨hour, rfl, (Option.some.inj h).symm⟩
    · exact ⟨minute, rfl, (Option.some.inj h).symm⟩
    · exact ⟨second, rfl, (Option.some.inj h).symm⟩
    · cases h
  · rintro ⟨unit, rfl, rfl⟩
    cases unit <;> rfl

end TimeUnit

structure Term where
  digits : List Char
  unit : TimeUnit
  ne_nil : digits ≠ []
  isDigit : ∀ c ∈ digits, c.isDigit = true

namespace Term

def count (term : Term) : Nat := Nat.ofDigitChars 10 term.digits 0

def text (term : Term) : List Char := term.digits ++ [term.unit.letter]

def seconds (term : Term) : Nat := term.count * term.unit.seconds

def Fits (term : Term) : Prop := term.count ≤ limit

end Term

private theorem scanTerm_text (term : Term) (rest : List Char) (hfits : term.Fits) :
    scanTerm (term.text ++ rest) = some (min term.seconds limit, rest) := by
  have hletter := term.unit.isDigit_letter
  have hdigits : (term.text ++ rest).takeWhile Char.isDigit = term.digits := by
    rw [Term.text, List.append_assoc, List.takeWhile_append_of_pos term.isDigit]
    simp [hletter]
  have hrest : (term.text ++ rest).dropWhile Char.isDigit = term.unit.letter :: rest := by
    rw [Term.text, List.append_assoc, List.dropWhile_append_of_pos term.isDigit]
    simp [hletter]
  have hcount : Access.digitsValue term.digits = term.count :=
    Access.digitsValue_eq_ofDigitChars term.digits
  have hsmall : ¬ limit < term.count := Nat.not_lt.mpr hfits
  have hunit : unitSeconds? term.unit.letter = some term.unit.seconds :=
    TimeUnit.unitSeconds?_eq_some_iff.mpr ⟨term.unit, rfl, rfl⟩
  simp [scanTerm, hdigits, hrest, hcount, term.ne_nil, hsmall, hunit, Term.seconds]

theorem exists_term_of_scanTerm {text rest : List Char} {seconds : Nat}
    (h : scanTerm text = some (seconds, rest)) :
    ∃ term : Term, term.Fits ∧ text = term.text ++ rest ∧ seconds = min term.seconds limit := by
  simp only [scanTerm] at h
  split at h
  · cases h
  · next c tail hdrop =>
    split at h
    · cases h
    · next hcheck =>
      simp only [Bool.or_eq_true, List.isEmpty_iff, decide_eq_true_eq, not_or] at hcheck
      obtain ⟨factor, hfactor, heq⟩ := Option.map_eq_some_iff.mp h
      obtain ⟨unit, rfl, rfl⟩ := TimeUnit.unitSeconds?_eq_some_iff.mp hfactor
      obtain ⟨rfl, rfl⟩ := Prod.mk.inj heq
      let term : Term := ⟨text.takeWhile Char.isDigit, unit, hcheck.1, fun c hc =>
        List.all_eq_true.mp List.all_takeWhile c hc⟩
      have hcount : Access.digitsValue (text.takeWhile Char.isDigit) = term.count :=
        Access.digitsValue_eq_ofDigitChars _
      refine ⟨term, ?_, ?_, by rw [hcount]; rfl⟩
      · rw [hcount] at hcheck
        exact Nat.not_lt.mp hcheck.2
      · calc text
            = text.takeWhile Char.isDigit ++ text.dropWhile Char.isDigit :=
              List.takeWhile_append_dropWhile.symm
          _ = term.text ++ tail := by rw [hdrop, Term.text, List.append_assoc]; rfl

def totalSeconds : List Term → Nat
  | [] => 0
  | term :: rest => term.seconds + totalSeconds rest

theorem text_ne_nil (term : Term) : term.text ≠ [] := by
  simp [Term.text]

theorem min_add_min (total seconds later : Nat) :
    min (min (total + min seconds limit) limit + later) limit =
      min (total + (seconds + later)) limit := by
  omega

private theorem sumTerms_texts (total : Nat) {terms : List Term} (hterms : terms ≠ [])
    (hfits : ∀ term ∈ terms, term.Fits) :
    sumTerms total (terms.flatMap Term.text) = some (min (total + totalSeconds terms) limit) := by
  induction terms generalizing total with
  | nil => exact absurd rfl hterms
  | cons term rest ih =>
    have hscan := scanTerm_text term (rest.flatMap Term.text) (hfits term List.mem_cons_self)
    rw [List.flatMap_cons, sumTerms, hscan]
    cases rest with
    | nil =>
      have hlast := min_add_min total term.seconds 0
      simpa [totalSeconds] using hlast
    | cons next rest =>
      have hmore : (next :: rest).flatMap Term.text ≠ [] := by simp [text_ne_nil]
      have hshorter : 0 < term.text.length := List.length_pos_iff.mpr (text_ne_nil term)
      have hlater := ih (min (total + min term.seconds limit) limit) (by simp)
        fun other hother => hfits other (List.mem_cons_of_mem _ hother)
      simp only [List.isEmpty_iff, hmore, if_false, List.length_append]
      rw [if_pos (by omega), hlater, min_add_min, totalSeconds.eq_2 term]

private theorem exists_terms_of_sumTerms {total result : Nat} {text : List Char}
    (h : sumTerms total text = some result) :
    ∃ terms : List Term, terms ≠ [] ∧ text = terms.flatMap Term.text ∧
      ∀ term ∈ terms, term.Fits := by
  fun_induction sumTerms total text with
  | case1 => cases h
  | case2 total text seconds rest hscan total' hempty =>
    obtain ⟨term, hfits, htext, -⟩ := exists_term_of_scanTerm hscan
    refine ⟨[term], by simp, ?_, by simpa using hfits⟩
    simpa [List.isEmpty_iff.mp hempty] using htext
  | case3 total text seconds rest hscan total' _ _ ih =>
    obtain ⟨term, hfits, htext, -⟩ := exists_term_of_scanTerm hscan
    obtain ⟨terms, -, hrest, hall⟩ := ih h
    refine ⟨term :: terms, by simp, by rw [htext, hrest, List.flatMap_cons], ?_⟩
    exact List.forall_mem_cons.mpr ⟨hfits, hall⟩
  | case4 => cases h

/-- A text is a duration exactly when it is one or more counts within 64 bits, each with its unit,
and its seconds are those of all the terms, as far as 64 bits go. -/
theorem seconds?_eq_some_iff (text : String) (total : Nat) :
    seconds? text = some total ↔ ∃ terms : List Term, terms ≠ [] ∧
      text.toList = terms.flatMap Term.text ∧ (∀ term ∈ terms, term.count ≤ limit) ∧
      total = min limit (totalSeconds terms) := by
  have hsum {terms : List Term} (hterms : terms ≠ []) (hfits : ∀ term ∈ terms, term.Fits) :
      sumTerms 0 (terms.flatMap Term.text) = some (min limit (totalSeconds terms)) := by
    rw [sumTerms_texts 0 hterms hfits, Nat.zero_add, Nat.min_comm]
  rw [seconds?]
  constructor
  · intro h
    obtain ⟨terms, hterms, htext, hfits⟩ := exists_terms_of_sumTerms h
    rw [htext, hsum hterms hfits] at h
    exact ⟨terms, hterms, htext, hfits, (Option.some.inj h).symm⟩
  · rintro ⟨terms, hterms, htext, hfits, rfl⟩
    rw [htext, hsum hterms hfits]

end Provision.Duration
