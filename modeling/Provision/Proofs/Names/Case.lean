import Provision.Names.Case

/-!
# Identifiers

Whatever a declared name is made of, each convention turns it into an identifier: a letter or
underscore, then letters, digits and underscores.
-/

namespace Provision.Names

def isIdentifierPart (c : Char) : Bool := c.isAlphanum || c == '_'

def IsIdentifier (text : List Char) : Prop :=
  ∃ first rest, text = first :: rest ∧ (first.isAlpha = true ∨ first = '_') ∧
    ∀ c ∈ rest, isIdentifierPart c = true

variable {c : Char}

private theorem toNat_lt_of_isAlphanum (h : c.isAlphanum = true) : c.toNat < 128 := by
  have upper (h : c.isUpper = true) : c.toNat ≤ 90 := (of_decide_eq_true h).2
  have lower (h : c.isLower = true) : c.toNat ≤ 122 :=
    of_decide_eq_true (Bool.and_eq_true_iff.mp h).2
  have digit (h : c.isDigit = true) : c.toNat ≤ 57 :=
    of_decide_eq_true (Bool.and_eq_true_iff.mp h).2
  rcases Bool.or_eq_true_iff.mp h with h | h
  · rcases Bool.or_eq_true_iff.mp h with h | h
    · exact Nat.lt_of_le_of_lt (upper h) (by decide)
    · exact Nat.lt_of_le_of_lt (lower h) (by decide)
  · exact Nat.lt_of_le_of_lt (digit h) (by decide)

/-- There are few enough letters and digits to try them all. -/
@[elab_as_elim]
theorem of_isAlphanum {motive : Char → Prop} (h : c.isAlphanum = true)
    (all : ∀ code < 128, (Char.ofNat code).isAlphanum = true → motive (Char.ofNat code)) :
    motive c := by
  have hc := all c.toNat (toNat_lt_of_isAlphanum h)
  rw [Char.ofNat_toNat] at hc
  exact hc h

theorem isAlphanum_cases (h : c.isAlphanum = true) :
    c.toLower.isAlphanum = true ∧ c.toUpper.isAlphanum = true :=
  of_isAlphanum h (by decide)

variable {text word : List Char}

private theorem isAlphanum_of_mem_wordsFrom {previous : Option Char} {current : List Char}
    (clean : ∀ c ∈ current, c.isAlphanum = true) (hword : word ∈ wordsFrom previous current text) :
    ∀ c ∈ word, c.isAlphanum = true := by
  induction text generalizing previous current with
  | nil =>
    rw [wordsFrom] at hword
    split at hword
    · simp at hword
    · rwa [List.mem_singleton.mp hword]
  | cons c rest ih =>
    have nothing : ∀ d ∈ ([] : List Char), d.isAlphanum = true := by simp
    simp only [wordsFrom] at hword
    split at hword
    · split at hword
      · exact ih nothing hword
      · rcases List.mem_cons.mp hword with rfl | hword
        · exact clean
        · exact ih nothing hword
    · next hc =>
      have hc : c.isAlphanum = true := by simpa using hc
      split at hword
      · rcases List.mem_cons.mp hword with rfl | hword
        · exact clean
        · exact ih (by simpa using hc) hword
      · refine ih (fun d hd => ?_) hword
        rcases List.mem_append.mp hd with hd | hd
        · exact clean d hd
        · exact List.mem_singleton.mp hd ▸ hc

variable {name : List Char}

theorem isAlphanum_of_mem_words (hword : word ∈ words name) : ∀ c ∈ word, c.isAlphanum = true :=
  isAlphanum_of_mem_wordsFrom (by simp) hword

theorem isAlphanum_of_mem_lowerWord (clean : ∀ c ∈ word, c.isAlphanum = true) :
    ∀ c ∈ lowerWord word, c.isAlphanum = true := by
  intro c hc
  obtain ⟨d, hd, rfl⟩ := List.mem_map.mp hc
  exact (isAlphanum_cases (clean d hd)).1

private theorem isAlphanum_of_mem_capitalize (clean : ∀ c ∈ word, c.isAlphanum = true) :
    ∀ c ∈ capitalize word, c.isAlphanum = true := by
  cases word with
  | nil => simp [capitalize]
  | cons first rest =>
    intro c hc
    rcases List.mem_cons.mp hc with rfl | hc
    · exact (isAlphanum_cases (clean first (by simp))).2
    · exact clean c (by simp [hc])

theorem isIdentifier_guardStart {empty : List Char} (hempty : IsIdentifier empty)
    (clean : ∀ c ∈ text, isIdentifierPart c = true) : IsIdentifier (guardStart empty text) := by
  cases text with
  | nil => exact hempty
  | cons first rest =>
    rw [guardStart]
    split
    · exact ⟨'_', first :: rest, rfl, .inr rfl, clean⟩
    · next hdigit =>
      refine ⟨first, rest, rfl, ?_, fun c hc => clean c (by simp [hc])⟩
      have hfirst := clean first (by simp)
      simpa [isIdentifierPart, Char.isAlphanum, hdigit] using hfirst

theorem isIdentifierPart_of_mem {ident : List Char} (h : IsIdentifier ident) (hc : c ∈ ident) :
    isIdentifierPart c = true := by
  obtain ⟨first, rest, rfl, hfirst, hrest⟩ := h
  rcases List.mem_cons.mp hc with rfl | hc
  · rcases hfirst with halpha | rfl
    · simp [isIdentifierPart, Char.isAlphanum, halpha]
    · decide
  · exact hrest c hc

variable {suffix : List Char}

theorem IsIdentifier.append (h : IsIdentifier text)
    (clean : ∀ c ∈ suffix, isIdentifierPart c = true) : IsIdentifier (text ++ suffix) := by
  obtain ⟨first, rest, rfl, hfirst, hrest⟩ := h
  refine ⟨first, rest ++ suffix, rfl, hfirst, fun c hc => ?_⟩
  rcases List.mem_append.mp hc with hc | hc
  · exact hrest c hc
  · exact clean c hc

theorem isIdentifier_fallback : IsIdentifier fallback :=
  have clean : fallback.all isIdentifierPart = true := rfl
  ⟨_, _, rfl, .inl rfl, List.all_eq_true.mp clean⟩

private theorem mem_intercalate {separator : List Char} {parts : List (List Char)}
    (hc : c ∈ List.intercalate separator parts) : c ∈ separator ∨ ∃ part ∈ parts, c ∈ part := by
  induction parts with
  | nil => simp at hc
  | cons part rest ih =>
    cases rest with
    | nil => exact .inr ⟨part, by simp, by simpa using hc⟩
    | cons next rest =>
      rw [List.intercalate_cons_cons, List.append_assoc, List.mem_append, List.mem_append] at hc
      rcases hc with hc | hc | hc
      · exact .inr ⟨part, by simp, hc⟩
      · exact .inl hc
      · rcases ih hc with hc | ⟨other, hother, hc⟩
        · exact .inl hc
        · exact .inr ⟨other, List.mem_cons_of_mem _ hother, hc⟩

theorem isIdentifier_snake (name : List Char) : IsIdentifier (snake name) := by
  refine isIdentifier_guardStart isIdentifier_fallback fun c hc => ?_
  rcases mem_intercalate hc with hc | ⟨part, hpart, hc⟩
  · simp [isIdentifierPart, List.mem_singleton.mp hc]
  · obtain ⟨word, hword, rfl⟩ := List.mem_map.mp hpart
    simp [isIdentifierPart, isAlphanum_of_mem_lowerWord (isAlphanum_of_mem_words hword) c hc]

theorem isAlphanum_of_mem_flatten_capitalize {parts : List (List Char)}
    (clean : ∀ word ∈ parts, ∀ c ∈ word, c.isAlphanum = true)
    (hc : c ∈ (parts.map capitalize).flatten) : c.isAlphanum = true := by
  obtain ⟨word, hword, hc⟩ := List.mem_flatten.mp hc
  obtain ⟨inner, hinner, rfl⟩ := List.mem_map.mp hword
  exact isAlphanum_of_mem_capitalize (clean inner hinner) c hc

def joinCamel : List (List Char) → List Char
  | [] => []
  | first :: rest => lowerWord first ++ (rest.map capitalize).flatten

theorem camel_eq (name : List Char) : camel name = guardStart fallback (joinCamel (words name)) :=
  rfl

theorem isAlphanum_of_mem_joinCamel (hc : c ∈ joinCamel (words name)) : c.isAlphanum = true := by
  have clean (word : List Char) (h : word ∈ words name) := isAlphanum_of_mem_words h
  cases hwords : words name with
  | nil => simp [hwords, joinCamel] at hc
  | cons first rest =>
    rw [hwords] at hc clean
    obtain ⟨hfirst, hrest⟩ := List.forall_mem_cons.mp clean
    rcases List.mem_append.mp hc with hc | hc
    · exact isAlphanum_of_mem_lowerWord hfirst c hc
    · exact isAlphanum_of_mem_flatten_capitalize hrest hc

theorem isIdentifier_camel (name : List Char) : IsIdentifier (camel name) := by
  rw [camel_eq]
  exact isIdentifier_guardStart isIdentifier_fallback fun c hc => by
    simp [isIdentifierPart, isAlphanum_of_mem_joinCamel hc]

theorem isIdentifier_pascal (name : List Char) : IsIdentifier (pascal name) := by
  have hempty : IsIdentifier (capitalize fallback) :=
    have clean : (capitalize fallback).all isIdentifierPart = true := rfl
    ⟨_, _, rfl, .inl rfl, List.all_eq_true.mp clean⟩
  exact isIdentifier_guardStart hempty fun c hc => by
    simp [isIdentifierPart,
      isAlphanum_of_mem_flatten_capitalize (fun word h => isAlphanum_of_mem_words h) hc]

theorem camel_append_ne {rest : List Char} (hc : c.isDigit = false) :
    camel name ++ suffix ≠ '_' :: c :: rest := by
  rw [camel_eq]
  cases htext : joinCamel (words name) with
  | nil => simp [guardStart, fallback]
  | cons first tail =>
    rw [guardStart]
    split
    · next hdigit =>
      intro h
      obtain rfl : first = c := by simpa using (List.cons.inj (List.cons.inj h).2).1
      simp [hdigit] at hc
    · intro h
      obtain rfl : first = '_' := (List.cons.inj h).1
      have clean : '_'.isAlphanum = true := @isAlphanum_of_mem_joinCamel _ name (by simp [htext])
      exact absurd clean (by decide)

theorem ne_nil_of_mem_wordsFrom {previous : Option Char} {current : List Char}
    (hword : word ∈ wordsFrom previous current text) : word ≠ [] := by
  induction text generalizing previous current with
  | nil =>
    rw [wordsFrom] at hword
    split at hword
    · simp at hword
    · next hcurrent => simpa [List.mem_singleton.mp hword] using hcurrent
  | cons c rest ih =>
    simp only [wordsFrom] at hword
    split at hword
    · split at hword
      · exact ih hword
      · next hcurrent =>
        rcases List.mem_cons.mp hword with rfl | hword
        · simpa using hcurrent
        · exact ih hword
    · split at hword
      · next hopens =>
        rcases List.mem_cons.mp hword with rfl | hword
        · simpa using (Bool.and_eq_true_iff.mp hopens).2
        · exact ih hword
      · exact ih hword

def HasAlphanum (text : List Char) : Prop := ∃ c ∈ text, c.isAlphanum = true

theorem HasAlphanum.mono {other : List Char} (h : HasAlphanum text) (hsubset : text ⊆ other) :
    HasAlphanum other := by
  obtain ⟨c, hc, halphanum⟩ := h
  exact ⟨c, hsubset hc, halphanum⟩

theorem exists_cons_of_mem_words (hword : word ∈ words name) :
    ∃ c rest, word = c :: rest ∧ c.isAlphanum = true := by
  obtain ⟨c, rest, rfl⟩ := List.exists_cons_of_ne_nil (ne_nil_of_mem_wordsFrom hword)
  exact ⟨c, rest, rfl, isAlphanum_of_mem_words hword c List.mem_cons_self⟩

theorem hasAlphanum_lowerWord (hword : word ∈ words name) : HasAlphanum (lowerWord word) := by
  obtain ⟨c, rest, rfl, -⟩ := exists_cons_of_mem_words hword
  have clean := isAlphanum_of_mem_lowerWord (isAlphanum_of_mem_words hword)
  exact ⟨c.toLower, List.mem_cons_self, clean _ List.mem_cons_self⟩

private theorem hasAlphanum_guardStart (h : text = [] ∨ HasAlphanum text) :
    HasAlphanum (guardStart fallback text) := by
  cases text with
  | nil => exact ⟨'v', by decide, rfl⟩
  | cons c rest =>
    have hsome : HasAlphanum (c :: rest) := h.resolve_left (by simp)
    rw [guardStart]
    split
    · exact hsome.mono (List.subset_cons_self _ _)
    · exact hsome

theorem hasAlphanum_join (name : List Char) (join : List (List Char) → List Char)
    (hnil : join [] = []) (hfirst : ∀ first rest, lowerWord first ⊆ join (first :: rest)) :
    HasAlphanum (guardStart fallback (join (words name))) := by
  refine hasAlphanum_guardStart ?_
  cases hwords : words name with
  | nil => exact .inl hnil
  | cons first rest =>
    have hmem : first ∈ words name := by simp [hwords]
    exact .inr ((hasAlphanum_lowerWord hmem).mono (hfirst first rest))

theorem hasAlphanum_snake (name : List Char) : HasAlphanum (snake name) := by
  refine hasAlphanum_join name (fun parts => List.intercalate ['_'] (parts.map lowerWord)) rfl ?_
  intro first rest
  cases rest with
  | nil => simp
  | cons next rest => simp [List.intercalate_cons_cons, List.append_assoc]

theorem hasAlphanum_camel (name : List Char) : HasAlphanum (camel name) :=
  hasAlphanum_join name joinCamel rfl fun _ _ => List.subset_append_left _ _

structure IsProper (text : List Char) : Prop where
  identifier : IsIdentifier text
  alphanum : HasAlphanum text

theorem IsProper.ne_underscore (h : IsProper text) : text ≠ ['_'] := by
  rintro rfl
  obtain ⟨c, hc, halphanum⟩ := h.alphanum
  obtain rfl := List.mem_singleton.mp hc
  exact absurd halphanum (by decide)

theorem IsProper.append (h : IsProper text) (clean : ∀ c ∈ suffix, isIdentifierPart c = true) :
    IsProper (text ++ suffix) :=
  ⟨h.identifier.append clean, h.alphanum.mono (List.subset_append_left _ _)⟩

end Provision.Names
