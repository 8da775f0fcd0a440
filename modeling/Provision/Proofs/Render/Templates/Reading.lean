import Provision.Proofs.Render.Literals

/-!
# Reading literals with holes

A literal with holes is read from left to right: at its front stands a character, in one of the
ways that its language has to write it, or an expression in a hole, and it goes on up to its
closing mark. Where the expression in a hole ends is for the rest of the language to say.
-/

namespace Provision.Render

inductive Atom where
  | char (value : Char)
  | code (value : List Char)
  deriving DecidableEq

def Piece.atoms : Piece → List Atom
  | .text value => value.toList.map .char
  | .code value => [.code value.toList]

def Piece.Forall (char : Char → Prop) (code : List Char → Prop) : Piece → Prop
  | .text value => ∀ c ∈ value.toList, char c
  | .code value => code value.toList

/-- How a language reads the expression in a hole: up to the brace that closes the hole. -/
structure Holes where
  read : List Char → Option (List Char × List Char)
  read_split {text code rest : List Char} :
    read text = some (code, rest) → text = code ++ '}' :: rest
  read_local {code rest : List Char} (other : List Char) :
    read (code ++ '}' :: rest) = some (code, rest) →
      read (code ++ '}' :: other) = some (code, other)

namespace Holes

/-- Whether a brace behind a text closes the hole that the text stands in. -/
def Whole (holes : Holes) (code : List Char) : Prop :=
  holes.read (code ++ ['}']) = some (code, [])

variable {holes : Holes}

theorem Whole.read {code : List Char} (whole : holes.Whole code) (rest : List Char) :
    holes.read (code ++ '}' :: rest) = some (code, rest) :=
  holes.read_local rest whole

theorem whole_of_read {code rest behind : List Char}
    (h : holes.read (code ++ '}' :: rest) = some (code, behind)) :
    holes.Whole code ∧ rest = behind := by
  obtain rfl : rest = behind := by simpa using holes.read_split h
  exact ⟨holes.read_local [] h, rfl⟩

theorem length_lt_of_read {text code rest : List Char} (h : holes.read text = some (code, rest)) :
    rest.length < text.length := by
  rw [holes.read_split h, List.length_append, List.length_cons]
  omega

def only (holes : Holes) (allowed : List Char → Bool) : Holes where
  read text := (holes.read text).filter (allowed ·.1)
  read_split h := holes.read_split (Option.filter_eq_some_iff.mp h).1
  read_local other h := by
    obtain ⟨hread, hallowed⟩ := Option.filter_eq_some_iff.mp h
    exact Option.filter_eq_some_iff.mpr ⟨holes.read_local other hread, hallowed⟩

theorem whole_only_iff {allowed : List Char → Bool} {code : List Char} :
    (holes.only allowed).Whole code ↔ holes.Whole code ∧ allowed code = true :=
  Option.filter_eq_some_iff

/-- What is open behind another character, the innermost first: a brace, a quote, or a backslash in
quotes. -/
def opened : List Char → Char → List Char
  | '\\' :: outer, _ => outer
  | '"' :: outer, c =>
    if c = '"' then outer else if c = '\\' then '\\' :: '"' :: outer else '"' :: outer
  | stack, c => if c = '"' ∨ c = '{' then c :: stack else if c = '}' then stack.tail else stack

/-- Reads up to the brace that matches, not counting braces in double quotes. -/
def readMatching (stack : List Char) : List Char → Option (List Char × List Char)
  | [] => none
  | c :: rest =>
    if c = '}' ∧ stack = [] then some ([], rest)
    else (readMatching (opened stack c) rest).map fun (code, behind) => (c :: code, behind)

private theorem readMatching_split {stack text code rest : List Char}
    (h : readMatching stack text = some (code, rest)) : text = code ++ '}' :: rest := by
  fun_induction readMatching stack text generalizing code with
  | case1 => cases h
  | case2 stack c behind hend =>
    cases h
    rw [hend.1, List.nil_append]
  | case3 stack c behind _ ih =>
    obtain ⟨⟨inner, _⟩, hread, heq⟩ := Option.map_eq_some_iff.mp h
    cases heq
    rw [ih hread, List.cons_append]

private theorem readMatching_local {stack code rest : List Char} (other : List Char)
    (h : readMatching stack (code ++ '}' :: rest) = some (code, rest)) :
    readMatching stack (code ++ '}' :: other) = some (code, other) := by
  induction code generalizing stack with
  | nil =>
    rw [List.nil_append, readMatching] at h ⊢
    split at h
    · next hend => rw [if_pos hend]
    · obtain ⟨_, -, heq⟩ := Option.map_eq_some_iff.mp h
      cases heq
  | cons c code ih =>
    rw [List.cons_append, readMatching] at h ⊢
    split at h
    · cases h
    · next hend =>
      obtain ⟨⟨inner, _⟩, hread, heq⟩ := Option.map_eq_some_iff.mp h
      cases heq
      rw [if_neg hend, ih hread]
      rfl

def matching : Holes where
  read := readMatching []
  read_split := readMatching_split
  read_local := readMatching_local

end Holes

structure Quotation where
  closing : List Char
  front : List Char → Option (Atom × List Char)
  front_closing : front closing = none
  shorter {text rest : List Char} {atom : Atom} :
    front text = some (atom, rest) → rest.length < text.length

namespace Quotation

def read (quotation : Quotation) (text : List Char) : Option (List Atom) :=
  if text = quotation.closing then some []
  else
    match h : quotation.front text with
    | none => none
    | some (atom, rest) =>
      have : rest.length < text.length := quotation.shorter h
      (quotation.read rest).map (atom :: ·)
termination_by text.length

variable (quotation : Quotation)

@[simp] theorem read_closing : quotation.read quotation.closing = some [] := by
  rw [read, if_pos rfl]

variable {quotation}

theorem read_eq_cons_iff {text : List Char} {first : Atom} {more : List Atom} :
    quotation.read text = some (first :: more) ↔
      ∃ rest, quotation.front text = some (first, rest) ∧ quotation.read rest = some more := by
  rw [read]
  split
  · next hclosing => simp [hclosing, quotation.front_closing]
  · split
    · next hnone => simp [hnone]
    · next atom rest hsome =>
      simp only [hsome, Option.map_eq_some_iff]
      constructor
      · rintro ⟨_, hread, heq⟩
        cases heq
        exact ⟨rest, rfl, hread⟩
      · rintro ⟨_, heq, hread⟩
        cases heq
        exact ⟨more, hread, rfl⟩

theorem read_hole_iff {holes : Holes} {text code behind : List Char} {more : List Atom}
    (h : quotation.front text =
      (holes.read (code ++ '}' :: behind)).map fun (code, rest) => (.code code, rest)) :
    quotation.read text = some (.code code :: more) ↔
      holes.Whole code ∧ quotation.read behind = some more := by
  rw [read_eq_cons_iff, h]
  constructor
  · rintro ⟨rest, hfront, hread⟩
    obtain ⟨⟨_, _⟩, hhole, heq⟩ := Option.map_eq_some_iff.mp hfront
    cases heq
    obtain ⟨whole, rfl⟩ := Holes.whole_of_read hhole
    exact ⟨whole, hread⟩
  · rintro ⟨whole, hread⟩
    exact ⟨behind, by rw [whole.read]; rfl, hread⟩

/-- A literal is read item by item: it says what its items should say if and only if each of them
is read, whatever comes behind it. -/
theorem read_flatMap_iff {α : Type} {write : α → List Char} {meaning : α → List Atom}
    {ok : α → Prop}
    (item : ∀ a behind more, quotation.read (write a ++ behind) = some (meaning a ++ more) ↔
      ok a ∧ quotation.read behind = some more)
    (items : List α) (behind : List Char) (more : List Atom) :
    quotation.read (items.flatMap write ++ behind) = some (items.flatMap meaning ++ more) ↔
      (∀ a ∈ items, ok a) ∧ quotation.read behind = some more := by
  induction items with
  | nil => simp
  | cons a rest ih =>
    rw [List.flatMap_cons, List.flatMap_cons, List.append_assoc, List.append_assoc, item, ih,
      List.forall_mem_cons, and_assoc]

end Quotation

end Provision.Render
