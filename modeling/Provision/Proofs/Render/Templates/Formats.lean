import Provision.Proofs.Render.Templates.Reading

/-!
# Formats

A format is a string with verbs in it: two percent signs stand for one, and `%v` for the next
argument. A template is a call with the format of its pieces and its expressions as arguments. The
percent signs are doubled in what the format is written as, which is as good as doubling them
before it is escaped: no escape has one.
-/

namespace Provision.Render.Go

/-- What a format gives with its arguments; none for another verb, and for an argument that is
missing or left over. -/
def formatted : List Char → List String → Option (List Atom)
  | [], [] => some []
  | [], _ :: _ => none
  | '%' :: '%' :: rest, args => (formatted rest args).map (.char '%' :: ·)
  | '%' :: 'v' :: rest, arg :: args => (formatted rest args).map (.code arg.toList :: ·)
  | '%' :: _, _ => none
  | c :: rest, args => (formatted rest args).map (.char c :: ·)

private theorem formatted_char {c : Char} (h : c ≠ '%') (rest : List Char) (args : List String) :
    formatted (c :: rest) args = (formatted rest args).map (.char c :: ·) := by
  rw [formatted]
  all_goals simp [h]

def formatChar (c : Char) : List Char := if c = '%' then ['%', '%'] else [c]

def formatOf : Piece → List Char
  | .text value => value.toList.flatMap formatChar
  | .code _ => ['%', 'v']

def escapeFormat (c : Char) : List Char := if c == '%' then [c, c] else Text.escapeChar c

private theorem double_percent (text : List Char) :
    Text.double '%' (Text.escape text) = text.flatMap escapeFormat := by
  rw [Text.escape, Text.double_flatMap]
  simp only [Text.double_escapeChar (by decide : '%' ∈ ['%', '{', '}'])]
  rfl

private theorem spells_escapeFormat (c : Char) : Text.Spells (escapeFormat c) (formatChar c) := by
  rw [escapeFormat, formatChar]
  split
  · next hpercent =>
    obtain rfl : c = '%' := by simpa using hpercent
    exact .verbatim (by decide) (.verbatim (by decide) .nil)
  · next hpercent =>
    rw [if_neg (by simpa using hpercent)]
    exact Text.spells_escapeChar c

theorem spells_flatMap {α : Type} {written format : α → List Char}
    (h : ∀ a, Text.Spells (written a) (format a)) (items : List α) :
    Text.Spells (items.flatMap written) (items.flatMap format) := by
  induction items with
  | nil => exact .nil
  | cons a rest ih => exact (h a).append ih

theorem spells_formatPiece (piece : Piece) : Text.Spells (formatPiece piece) (formatOf piece) := by
  cases piece with
  | text value =>
    rw [formatPiece, double_percent]
    exact spells_flatMap spells_escapeFormat value.toList
  | code value => exact .verbatim (by decide) (.verbatim (by decide) .nil)

private theorem formatted_text (text format : List Char) (args : List String) :
    formatted (text.flatMap formatChar ++ format) args =
      (formatted format args).map (text.map .char ++ ·) := by
  induction text with
  | nil => simp
  | cons c rest ih =>
    rw [List.flatMap_cons, List.append_assoc, formatChar]
    split
    · next hpercent =>
      subst hpercent
      simp [formatted, ih, Function.comp_def]
    · next hpercent =>
      rw [List.singleton_append, formatted_char hpercent, ih]
      simp [Function.comp_def]

private theorem formatted_pieces (pieces : List Piece) :
    formatted (pieces.flatMap formatOf) (pieces.filterMap code?) =
      some (pieces.flatMap Piece.atoms) := by
  induction pieces with
  | nil => rfl
  | cons piece rest ih =>
    cases piece with
    | text value =>
      rw [List.flatMap_cons, formatOf, formatted_text, List.filterMap_cons_none rfl, ih]
      rfl
    | code value => simp [formatOf, code?, formatted, ih, Piece.atoms]

/-- A template is a call with a string literal, which decodes to a format, and with the expressions
as arguments; the format takes each of them once and in order, has no other verb, and gives the
texts between them. -/
theorem template_format_means (layout : Layout) (pieces : List Piece) :
    ∃ written format, template layout pieces =
        "fmt.Sprintf(\"" ++ String.ofList written ++ "\", "
          ++ commaList (pieces.filterMap code?) ++ ")" ∧
      Text.decode written = some format ∧
      formatted format (pieces.filterMap code?) = some (pieces.flatMap Piece.atoms) := by
  exact ⟨pieces.flatMap formatPiece, pieces.flatMap formatOf, rfl,
    Text.decode_of_spells (spells_flatMap spells_formatPiece pieces), formatted_pieces pieces⟩

end Provision.Render.Go
