import Provision.Proofs.Render.Templates.Reading

/-!
# Holes in braces

Where an expression stands in braces, a brace in the text is doubled, and all else is written as in
other literals in double quotes.
-/

namespace Provision.Text

def escaped? : List Char → Option (Char × List Char)
  | 'u' :: x :: y :: z :: w :: rest => do
    let code ← Json.hexCode? x y z w
    let c ← charOfCode? code
    return (c, rest)
  | mark :: rest => (shortEscape? mark).map (·, rest)
  | [] => none

theorem Escape.escaped? {mark : List Char} {c : Char} (h : Escape mark c) (rest : List Char) :
    ∃ behind, mark ++ rest = '\\' :: behind ∧ Text.escaped? behind = some (c, rest) := by
  cases h with
  | @short mark _ hshort =>
    have hcode : mark ≠ 'u' := by
      rintro rfl
      simp [shortEscape?] at hshort
    refine ⟨mark :: rest, rfl, ?_⟩
    rw [Text.escaped?]
    · rw [hshort]; rfl
    · exact fun _ _ _ _ _ heq => absurd heq hcode
  | @code x y z w _ hcode =>
    have hc := charOfCode?_eq_some_iff.mpr (rfl : c.toNat = c.toNat)
    exact ⟨'u' :: x :: y :: z :: w :: rest, rfl, by simp [Text.escaped?, hcode, hc]⟩

private theorem length_lt_of_escaped? {text rest : List Char} {c : Char}
    (h : escaped? text = some (c, rest)) : rest.length < text.length := by
  unfold escaped? at h
  split at h
  · simp only [Option.bind_eq_bind, Option.bind_eq_some_iff] at h
    obtain ⟨_, -, _, -, heq⟩ := h
    cases heq
    simp only [List.length_cons]
    omega
  · obtain ⟨_, -, heq⟩ := Option.map_eq_some_iff.mp h
    cases heq
    simp
  · cases h

end Provision.Text

namespace Provision.Render

namespace Quotation

def bracedFront (holes : Holes) (verbatim : Char → Bool) : List Char → Option (Atom × List Char)
  | [] => none
  | c :: rest =>
    if c = '\\' then (Text.escaped? rest).map fun (value, behind) => (.char value, behind)
    else if c = '{' ∨ c = '}' then
      if rest.head? = some c then some (.char c, rest.tail)
      else if c = '{' then (holes.read rest).map fun (code, behind) => (.code code, behind)
      else none
    else if verbatim c ∧ c ≠ '"' then some (.char c, rest)
    else none

private theorem bracedFront_shorter {holes : Holes} {verbatim : Char → Bool} {text rest : List Char}
    {atom : Atom} (h : bracedFront holes verbatim text = some (atom, rest)) :
    rest.length < text.length := by
  have hole {inner code behind : List Char} (hread : holes.read inner = some (code, behind)) :=
    Holes.length_lt_of_read hread
  have escape {inner behind : List Char} {c : Char}
    (hread : Text.escaped? inner = some (c, behind)) := Text.length_lt_of_escaped? hread
  cases text with
  | nil => cases h
  | cons c tail =>
    rw [bracedFront] at h
    grind [= Option.map_eq_some_iff]

def braced (holes : Holes) (verbatim : Char → Bool) (triple : Bool) : Quotation where
  closing := if triple then ['"', '"', '"'] else ['"']
  front := bracedFront holes verbatim
  front_closing := by cases triple <;> simp [bracedFront]
  shorter := bracedFront_shorter

section

variable {holes : Holes} {verbatim : Char → Bool} {triple : Bool}

theorem read_doubled_iff {c : Char} (h : c = '{' ∨ c = '}') (behind : List Char)
    (more : List Atom) :
    (braced holes verbatim triple).read ([c, c] ++ behind) = some ([.char c] ++ more) ↔
      (braced holes verbatim triple).read behind = some more := by
  rw [List.singleton_append, read_eq_cons_iff]
  rcases h with rfl | rfl <;> simp [braced, bracedFront]

theorem read_verbatim_iff {c : Char} (hc : c ≠ '\\' ∧ c ≠ '{' ∧ c ≠ '}' ∧ c ≠ '"')
    (behind : List Char) (more : List Atom) :
    (braced holes verbatim triple).read ([c] ++ behind) = some ([.char c] ++ more) ↔
      verbatim c = true ∧ (braced holes verbatim triple).read behind = some more := by
  rw [List.singleton_append, List.singleton_append, read_eq_cons_iff]
  simp [braced, bracedFront, hc, and_assoc]

theorem read_escapeChar_iff {c : Char} (hbrace : c ≠ '{' ∧ c ≠ '}') (behind : List Char)
    (more : List Atom) :
    (braced holes verbatim triple).read (Text.escapeChar c ++ behind) =
        some ([.char c] ++ more) ↔
      (Text.isVerbatim c = true → verbatim c = true) ∧
        (braced holes verbatim triple).read behind = some more := by
  cases hverbatim : Text.isVerbatim c with
  | true =>
    have hc : c ≠ '\\' ∧ c ≠ '{' ∧ c ≠ '}' ∧ c ≠ '"' := by simp_all [Text.isVerbatim]
    rw [(Text.escapeChar_cases c).1 hverbatim, read_verbatim_iff hc]
    simp
  | false =>
    obtain ⟨inner, heq, hread⟩ := ((Text.escapeChar_cases c).2 hverbatim).escaped? behind
    rw [heq, List.singleton_append, read_eq_cons_iff]
    simp [braced, bracedFront, hread]

/-- An expression is read in its hole if and only if it is whole and does not start with a brace,
which would be read as doubled. -/
theorem read_braced_iff (code behind : List Char) (more : List Atom) :
    (braced holes verbatim triple).read ('{' :: code ++ '}' :: behind) =
        some (.code code :: more) ↔
      (holes.Whole code ∧ code.head? ≠ some '{') ∧
        (braced holes verbatim triple).read behind = some more := by
  by_cases hbrace : code.head? = some '{'
  · have hfront : (braced holes verbatim triple).front ('{' :: code ++ '}' :: behind) =
        some (.char '{', (code ++ '}' :: behind).tail) := by
      simp [braced, bracedFront, hbrace]
    rw [read_eq_cons_iff, hfront]
    simp [hbrace]
  · have hfront : (braced holes verbatim triple).front ('{' :: code ++ '}' :: behind) =
        (holes.read (code ++ '}' :: behind)).map fun (code, rest) => (.code code, rest) := by
      cases code <;> simp_all [braced, bracedFront]
    rw [read_hole_iff hfront]
    simp [hbrace]

def bracedPiece (write : Char → List Char) : Piece → List Char
  | .text value => value.toList.flatMap write
  | .code value => '{' :: value.toList ++ ['}']

theorem read_bracedPieces_iff {write : Char → List Char} {ok : Char → Prop}
    (char : ∀ c behind more,
      (braced holes verbatim triple).read (write c ++ behind) = some ([.char c] ++ more) ↔
        ok c ∧ (braced holes verbatim triple).read behind = some more)
    (pieces : List Piece) :
    (braced holes verbatim triple).read
        (pieces.flatMap (bracedPiece write) ++ (braced holes verbatim triple).closing) =
        some (pieces.flatMap Piece.atoms) ↔
      ∀ piece ∈ pieces,
        piece.Forall ok fun code => holes.Whole code ∧ code.head? ≠ some '{' := by
  have item (piece : Piece) (behind : List Char) (more : List Atom) :
      (braced holes verbatim triple).read (bracedPiece write piece ++ behind) =
          some (piece.atoms ++ more) ↔
        piece.Forall ok (fun code => holes.Whole code ∧ code.head? ≠ some '{') ∧
          (braced holes verbatim triple).read behind = some more := by
    cases piece with
    | code value =>
      rw [bracedPiece, List.append_assoc]
      exact read_braced_iff value.toList behind more
    | text value =>
      rw [Piece.atoms, List.map_eq_flatMap]
      exact read_flatMap_iff char value.toList behind more
  have hpieces := read_flatMap_iff item pieces (braced holes verbatim triple).closing []
  simpa using hpieces

end

end Quotation

end Provision.Render
