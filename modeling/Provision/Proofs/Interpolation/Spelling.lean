import Provision.Interpolation

/-!
# The spelling of accesses

`Access.Spelled` is the grammar of property accesses: which texts stand for an access. A root can be
quoted though it is a property name and an index can have leading zeros, so an access has more than
one spelling. Reading an access in braces finds one exactly where a spelling and the closing brace
stand, and no spelling can be read in two ways.
-/

namespace Provision

variable {rest name text digits spelling : List Char} {negative : Bool} {access : Access}

namespace Access

def isName : List Char → Bool
  | [] => false
  | c :: rest => isNameStart c && rest.all isNamePart

def Stops (kind : Char → Bool) (rest : List Char) : Prop := ∀ c ∈ rest.head?, kind c = false

theorem Stops.cons {kind : Char → Bool} {c : Char} (h : kind c = false) (rest : List Char) :
    Stops kind (c :: rest) := by
  intro d hd
  obtain rfl := Option.some.inj hd
  exact h

theorem Stops.split {kind : Char → Bool} {first : List Char} (hrest : Stops kind rest)
    (hfirst : ∀ c ∈ first, kind c = true) :
    (first ++ rest).takeWhile kind = first ∧ (first ++ rest).dropWhile kind = rest := by
  rw [List.takeWhile_append_of_pos hfirst, List.dropWhile_append_of_pos hfirst]
  cases rest with
  | nil => simp
  | cons c rest =>
    have hc : kind c = false := hrest c rfl
    simp [hc]

theorem exists_stops (kind : Char → Bool) (text : List Char) :
    ∃ first rest, text = first ++ rest ∧ (∀ c ∈ first, kind c = true) ∧ Stops kind rest := by
  refine ⟨text.takeWhile kind, text.dropWhile kind, List.takeWhile_append_dropWhile.symm,
    fun c hc => List.all_eq_true.mp List.all_takeWhile c hc, fun c hc => ?_⟩
  have hnot := List.head?_dropWhile_not kind text
  rw [Option.mem_def.mp hc] at hnot
  exact hnot

theorem all_isNamePart_of_isName (h : isName name = true) : ∀ c ∈ name, isNamePart c = true := by
  cases name with
  | nil => simp
  | cons c rest =>
    obtain ⟨hstart, hrest⟩ := Bool.and_eq_true_iff.mp h
    intro d hd
    rcases List.mem_cons.mp hd with rfl | hmem
    · exact isNamePart_of_isNameStart hstart
    · exact List.all_eq_true.mp hrest d hmem

theorem scanName_append (h : isName name = true) (hrest : Stops isNamePart rest) :
    scanName (name ++ rest) = some (name, rest) := by
  obtain ⟨htake, hdrop⟩ := hrest.split (all_isNamePart_of_isName h)
  cases name with
  | nil => simp [isName] at h
  | cons c more =>
    have hstart : isNameStart c = true := (Bool.and_eq_true_iff.mp h).1
    rw [List.cons_append] at htake hdrop ⊢
    rw [scanName, if_pos hstart, htake, hdrop]

theorem ne_bracket_cons (h : isName name = true) (rest more : List Char) :
    name ++ rest ≠ '[' :: more := by
  cases name with
  | nil => simp [isName] at h
  | cons c others =>
    have hstart : isNameStart c = true := (Bool.and_eq_true_iff.mp h).1
    intro heq
    obtain ⟨rfl, -⟩ := List.cons.inj heq
    exact absurd hstart (by decide)

theorem spelled_of_scanName (h : scanName text = some (name, rest)) :
    isName name = true ∧ text = name ++ rest := by
  cases text with
  | nil => simp [scanName] at h
  | cons c more =>
    simp only [scanName] at h
    split at h
    · next hstart =>
      obtain ⟨rfl, rfl⟩ := Prod.mk.inj (Option.some.inj h)
      refine ⟨?_, (List.takeWhile_append_dropWhile).symm⟩
      rw [List.takeWhile_cons_of_pos (isNamePart_of_isNameStart hstart), isName, hstart]
      exact List.all_takeWhile
    · simp at h

def escapeKeyChar (c : Char) : List Char := if c = '"' ∨ c = '\\' then ['\\', c] else [c]

def quoteKey (key : List Char) : List Char := '"' :: key.flatMap escapeKeyChar ++ ['"']

theorem bracketed_append (key rest : List Char) :
    '[' :: quoteKey key ++ [']'] ++ rest =
      '[' :: '"' :: (key.flatMap escapeKeyChar ++ '"' :: ']' :: rest) := by
  simp [quoteKey]

theorem scanQuoted_append (read key rest : List Char) :
    scanQuoted read (key.flatMap escapeKeyChar ++ '"' :: rest) =
      some (read.reverse ++ key, rest) := by
  induction key generalizing read with
  | nil => simp [scanQuoted]
  | cons c more ih =>
    rw [List.flatMap_cons, List.append_assoc, escapeKeyChar]
    split
    · next hspecial =>
      rcases hspecial with rfl | rfl
      all_goals
        simp only [List.cons_append, List.nil_append, scanQuoted]
        rw [ih, List.reverse_cons, List.append_assoc]
        rfl
    · next hplain =>
      rw [not_or] at hplain
      rw [List.singleton_append, scanQuoted, ih, List.reverse_cons, List.append_assoc]
      · rfl
      all_goals simp_all

theorem spelled_of_scanQuoted {read key : List Char} (h : scanQuoted read text = some (key, rest)) :
    ∃ more, key = read.reverse ++ more ∧ text = more.flatMap escapeKeyChar ++ '"' :: rest := by
  fun_induction scanQuoted read text with
  | case1 read text =>
    obtain ⟨rfl, rfl⟩ := Prod.mk.inj (Option.some.inj h)
    exact ⟨[], by simp, rfl⟩
  | case2 read text ih =>
    obtain ⟨more, rfl, rfl⟩ := ih h
    exact ⟨'"' :: more, by simp, rfl⟩
  | case3 read text ih =>
    obtain ⟨more, rfl, rfl⟩ := ih h
    exact ⟨'\\' :: more, by simp, rfl⟩
  | case4 | case6 => simp at h
  | case5 read c text hquote _ _ hslash ih =>
    obtain ⟨more, rfl, rfl⟩ := ih h
    have hplain : ¬ (c = '"' ∨ c = '\\') := by
      rintro (rfl | rfl)
      · exact hquote rfl
      · exact hslash rfl
    exact ⟨c :: more, by simp, by simp [escapeKeyChar, hplain]⟩

def sign (negative : Bool) : List Char := if negative then ['-'] else []

structure IsIndex (negative : Bool) (digits : List Char) : Prop where
  nonempty : digits ≠ []
  decimal : ∀ c ∈ digits, c.isDigit = true
  low : -indexLimit ≤ signedValue negative digits
  high : signedValue negative digits < indexLimit

theorem IsIndex.ne_quote_cons (h : IsIndex negative digits) (rest more : List Char) :
    sign negative ++ digits ++ rest ≠ '"' :: more := by
  cases negative with
  | true => simp [sign]
  | false =>
    obtain ⟨c, others, rfl⟩ := List.exists_cons_of_ne_nil h.nonempty
    intro heq
    obtain ⟨rfl, -⟩ := List.cons.inj heq
    exact absurd (h.decimal '"' List.mem_cons_self) (by decide)

private theorem splitSign_append (hne : digits ≠ []) (hdigits : ∀ c ∈ digits, c.isDigit = true) :
    splitSign (sign negative ++ digits ++ rest) = (negative, digits ++ rest) := by
  cases negative with
  | true => rfl
  | false =>
    cases digits with
    | nil => exact absurd rfl hne
    | cons c more =>
      have hminus : c ≠ '-' := by
        rintro rfl
        exact absurd (hdigits '-' List.mem_cons_self) (by decide)
      simp only [sign, Bool.false_eq_true, ↓reduceIte, List.nil_append, List.cons_append]
      rw [splitSign]
      simpa using hminus

private theorem sign_append_splitSign (text : List Char) :
    sign (splitSign text).1 ++ (splitSign text).2 = text := by
  fun_cases splitSign text with
  | case1 => rfl
  | case2 => rfl

private theorem scanIndex_append (h : IsIndex negative digits) (hrest : Stops Char.isDigit rest) :
    scanIndex (sign negative ++ digits ++ rest) = some (signedValue negative digits, rest) := by
  obtain ⟨htake, hdrop⟩ := hrest.split h.decimal
  have hlow := h.low
  have hhigh := h.high
  rw [scanIndex, splitSign_append h.nonempty h.decimal]
  simp only [htake, hdrop]
  rw [if_neg]
  simp only [Bool.or_eq_true, decide_eq_true_eq, List.isEmpty_iff]
  rintro ((hnil | hlt) | hle)
  · exact h.nonempty hnil
  · omega
  · omega

private theorem spelled_of_scanIndex {position : Int} (h : scanIndex text = some (position, rest)) :
    ∃ negative digits, IsIndex negative digits ∧ position = signedValue negative digits ∧
      text = sign negative ++ digits ++ rest := by
  simp only [scanIndex] at h
  split at h
  · simp at h
  · next hfits =>
    obtain ⟨rfl, rfl⟩ := Prod.mk.inj (Option.some.inj h)
    simp only [Bool.or_eq_true, decide_eq_true_eq, not_or, List.isEmpty_iff] at hfits
    refine ⟨(splitSign text).1, (splitSign text).2.takeWhile Char.isDigit,
      ⟨hfits.1.1, fun c hc => List.all_eq_true.mp List.all_takeWhile c hc, by omega, by omega⟩,
      rfl, ?_⟩
    rw [List.append_assoc, List.takeWhile_append_dropWhile, sign_append_splitSign]

inductive AccessorSpelled : Accessor → List Char → Prop
  | field {name : List Char} (h : isName name = true) :
      AccessorSpelled (.field (String.ofList name)) ('.' :: name)
  | index {negative : Bool} {digits : List Char} (h : IsIndex negative digits) :
      AccessorSpelled (.index (signedValue negative digits))
        ('[' :: (sign negative ++ digits) ++ [']'])
  | key (key : List Char) :
      AccessorSpelled (.key (String.ofList key)) ('[' :: quoteKey key ++ [']'])

private theorem scanAccessor_append {accessor : Accessor} (h : AccessorSpelled accessor spelling)
    (hrest : Stops isNamePart rest) : scanAccessor (spelling ++ rest) = some (accessor, rest) := by
  cases h with
  | field hname => rw [List.cons_append, scanAccessor, scanName_append hname hrest]; rfl
  | @index negative digits hindex =>
    have hstop : Stops Char.isDigit (']' :: rest) := .cons (by decide) rest
    have hscan := scanIndex_append hindex hstop
    have htext : '[' :: (sign negative ++ digits) ++ [']'] ++ rest =
        '[' :: (sign negative ++ digits ++ ']' :: rest) := by simp
    rw [htext, scanAccessor, hscan]
    · rfl
    · exact fun more heq => hindex.ne_quote_cons _ more heq
  | key key =>
    rw [bracketed_append, scanAccessor, scanQuoted_append]
    rfl

theorem spelled_of_closeBracket {α : Type} {read : Option (α × List Char)} {value : α}
    (h : closeBracket read = some (value, rest)) : read = some (value, ']' :: rest) := by
  unfold closeBracket at h
  split at h
  · obtain ⟨rfl, rfl⟩ := Prod.mk.inj (Option.some.inj h)
    rfl
  · simp at h

private theorem spelled_of_scanAccessor {accessor : Accessor}
    (h : scanAccessor text = some (accessor, rest)) :
    ∃ spelling, AccessorSpelled accessor spelling ∧ text = spelling ++ rest := by
  unfold scanAccessor at h
  split at h
  · obtain ⟨⟨name, left⟩, hscan, heq⟩ := Option.map_eq_some_iff.mp h
    obtain ⟨rfl, rfl⟩ := Prod.mk.inj heq
    obtain ⟨hname, rfl⟩ := spelled_of_scanName hscan
    exact ⟨_, .field hname, rfl⟩
  · obtain ⟨⟨key, left⟩, hclosed, heq⟩ := Option.map_eq_some_iff.mp h
    obtain ⟨rfl, rfl⟩ := Prod.mk.inj heq
    obtain ⟨_, rfl, rfl⟩ := spelled_of_scanQuoted (spelled_of_closeBracket hclosed)
    exact ⟨_, .key _, (bracketed_append _ _).symm⟩
  · obtain ⟨⟨position, left⟩, hclosed, heq⟩ := Option.map_eq_some_iff.mp h
    obtain ⟨rfl, rfl⟩ := Prod.mk.inj heq
    obtain ⟨negative, digits, hindex, rfl, rfl⟩ :=
      spelled_of_scanIndex (spelled_of_closeBracket hclosed)
    exact ⟨_, .index hindex, by simp⟩
  · simp at h

inductive AccessorsSpelled : List Accessor → List Char → Prop
  | nil : AccessorsSpelled [] []
  | cons {accessor : Accessor} {accessors : List Accessor} {first rest : List Char}
      (hfirst : AccessorSpelled accessor first) (hrest : AccessorsSpelled accessors rest) :
      AccessorsSpelled (accessor :: accessors) (first ++ rest)

def Ends (rest : List Char) : Prop :=
  ∀ c ∈ rest.head?, isNamePart c = false ∧ c ≠ '.' ∧ c ≠ '['

theorem Ends.scanAccessor_eq (h : Ends rest) : scanAccessor rest = none := by
  cases rest with
  | nil => rfl
  | cons c rest =>
    obtain ⟨-, hdot, hbracket⟩ := h c rfl
    unfold scanAccessor
    split <;> simp_all

theorem AccessorsSpelled.stops {accessors : List Accessor}
    (h : AccessorsSpelled accessors spelling) (hrest : Ends rest) :
    Stops isNamePart (spelling ++ rest) := by
  cases h with
  | nil => exact fun c hc => (hrest c hc).1
  | cons hfirst _ => cases hfirst <;> exact .cons (by decide) _

theorem scanAccessors_append {accessors : List Accessor} (h : AccessorsSpelled accessors spelling)
    (hrest : Ends rest) : scanAccessors (spelling ++ rest) = (accessors, rest) := by
  induction h with
  | nil => rw [List.nil_append, scanAccessors_of_none hrest.scanAccessor_eq]
  | @cons accessor accessors first later hfirst hlater ih =>
    rw [List.append_assoc,
      scanAccessors_of_some (scanAccessor_append hfirst (hlater.stops hrest)), ih]

private theorem spelled_scanAccessors (text : List Char) :
    ∃ spelling, AccessorsSpelled (scanAccessors text).1 spelling ∧
      text = spelling ++ (scanAccessors text).2 := by
  fun_induction scanAccessors text with
  | case1 text => exact ⟨[], .nil, rfl⟩
  | case2 text accessor rest h hlt accessors left hrest ih =>
    obtain ⟨first, hfirst, rfl⟩ := spelled_of_scanAccessor h
    obtain ⟨later, hlater, hsplit⟩ := ih
    rw [hrest] at hlater hsplit
    exact ⟨first ++ later, .cons hfirst hlater, by rw [hsplit, List.append_assoc]⟩

inductive RootSpelled : String → List Char → Prop
  | name {name : List Char} (h : isName name = true) : RootSpelled (String.ofList name) name
  | quoted (key : List Char) : RootSpelled (String.ofList key) ('[' :: quoteKey key ++ [']'])

def Spelled (access : Access) (spelling : List Char) : Prop :=
  ∃ root accessors, RootSpelled access.root root ∧ AccessorsSpelled access.accessors accessors ∧
    spelling = root ++ accessors

private theorem scanRoot_append {root : String} (h : RootSpelled root spelling)
    (hrest : Stops isNamePart rest) :
    ∃ name, scanRoot (spelling ++ rest) = some (name, rest) ∧ String.ofList name = root := by
  cases h with
  | name hname =>
    refine ⟨_, ?_, rfl⟩
    rw [scanRoot, scanName_append hname hrest]
    exact fun more heq => ne_bracket_cons hname _ _ heq
  | quoted key =>
    refine ⟨key, ?_, rfl⟩
    rw [bracketed_append, scanRoot, scanQuoted_append]
    rfl

private theorem spelled_of_scanRoot (h : scanRoot text = some (name, rest)) :
    ∃ spelling, RootSpelled (String.ofList name) spelling ∧ text = spelling ++ rest := by
  unfold scanRoot at h
  split at h
  · obtain ⟨_, rfl, rfl⟩ := spelled_of_scanQuoted (spelled_of_closeBracket h)
    exact ⟨_, .quoted _, (bracketed_append _ _).symm⟩
  · obtain ⟨hname, rfl⟩ := spelled_of_scanName h
    exact ⟨_, .name hname, rfl⟩

private theorem scan_append (h : access.Spelled spelling) (hrest : Ends rest) :
    scan (spelling ++ rest) = some (access, rest) := by
  obtain ⟨root, accessors, hroot, haccessors, rfl⟩ := h
  obtain ⟨name, hscan, hname⟩ := scanRoot_append hroot (haccessors.stops hrest)
  rw [List.append_assoc, scan, hscan, Option.map_some]
  simp only [scanAccessors_append haccessors hrest, hname]

private theorem spelled_of_scan (h : scan text = some (access, rest)) :
    ∃ spelling, access.Spelled spelling ∧ text = spelling ++ rest := by
  obtain ⟨⟨name, left⟩, hscan, heq⟩ := Option.map_eq_some_iff.mp h
  obtain ⟨rfl, rfl⟩ := Prod.mk.inj heq
  obtain ⟨root, hroot, rfl⟩ := spelled_of_scanRoot hscan
  obtain ⟨accessors, haccessors, hsplit⟩ := spelled_scanAccessors left
  refine ⟨root ++ accessors, ⟨root, accessors, hroot, haccessors, rfl⟩, ?_⟩
  rw [List.append_assoc, ← hsplit]

end Access

namespace Interpolation

theorem scanAccess_eq_some_iff {left : List Char} :
    scanAccess text = some (access, left) ↔
      ∃ spelling, access.Spelled spelling ∧ text = spelling ++ '}' :: left := by
  constructor
  · intro h
    unfold scanAccess at h
    split at h
    · next hscan =>
      obtain ⟨rfl, rfl⟩ := Prod.mk.inj (Option.some.inj h)
      exact Access.spelled_of_scan hscan
    · simp at h
  · rintro ⟨spelling, hspelled, rfl⟩
    have hends : Access.Ends ('}' :: left) := by
      intro c hc
      obtain rfl := Option.some.inj hc
      decide
    simp only [scanAccess, Access.scan_append hspelled hends]

end Interpolation

end Provision
