import Provision.Proofs.Render.Templates.Braces

/-!
# Interpolated strings

An interpolated string means what its pieces mean unless a text holds a line or a paragraph
separator: these end a line of the program, and they are no control characters, so that they are
written as they are.
-/

namespace Provision.Render.CSharp

def isSeparator (c : Char) : Bool := c.toNat == 0x2028 || c.toNat == 0x2029

def isNewLine (c : Char) : Bool := c == '\n' || c == '\r' || c.toNat == 0x85 || isSeparator c

def quotation (holes : Holes) : Quotation := .braced holes (!isNewLine ·) false

def readInterpolated (holes : Holes) (text : String) : Option (List Atom) :=
  if ['$', '"'].isPrefixOf text.toList then (quotation holes).read (text.toList.drop 2) else none

/-- A piece as it stands in the string: an expression with a conditional is in parentheses. -/
def parenthesized : Piece → Piece
  | .text value => .text value
  | .code value => .code (if hasConditional value.toList then "(" ++ value ++ ")" else value)

def escapeBraced (c : Char) : List Char :=
  if c == '{' || c == '}' then [c, c] else Text.escapeChar c

private theorem escapeInterpolated_eq (text : String) :
    escapeInterpolated text = text.toList.flatMap escapeBraced := by
  rw [escapeInterpolated, Text.escape, Text.double_flatMap, Text.double_flatMap]
  refine congrArg (List.flatMap · text.toList) (funext fun c => ?_)
  rw [Text.double_escapeChar (by decide), escapeBraced]
  by_cases hopen : c = '{'
  · subst hopen
    rfl
  · simp only [beq_iff_eq, hopen, ↓reduceIte, Bool.or_eq_true, false_or]
    exact (Text.double_escapeChar (by decide) c).trans (by simp)

private theorem templatePiece_eq :
    templatePiece = fun piece => Quotation.bracedPiece escapeBraced (parenthesized piece) := by
  funext piece
  cases piece with
  | text value => exact escapeInterpolated_eq value
  | code value =>
    rw [templatePiece, parenthesized, Quotation.bracedPiece]
    split <;> simp

private theorem isNewLine_of_isVerbatim {c : Char} (h : Text.isVerbatim c = true) :
    isNewLine c = isSeparator c := by
  have hline : c ≠ '\n' ∧ c ≠ '\r' := by constructor <;> rintro rfl <;> exact absurd h (by decide)
  have hnext : c.toNat ≠ 0x85 := by
    intro hcode
    rw [← Char.ofNat_toNat c, hcode] at h
    exact absurd h (by decide)
  simp [isNewLine, hline, hnext]

private theorem isVerbatim_of_isSeparator {c : Char} (h : isSeparator c = true) :
    Text.isVerbatim c = true := by
  simp only [isSeparator, Bool.or_eq_true, beq_iff_eq] at h
  rw [← Char.ofNat_toNat c]
  rcases h with hcode | hcode <;> rw [hcode] <;> decide

theorem read_char_iff (holes : Holes) (c : Char) (behind : List Char) (more : List Atom) :
    (quotation holes).read (escapeBraced c ++ behind) = some ([.char c] ++ more) ↔
      isSeparator c = false ∧ (quotation holes).read behind = some more := by
  rw [escapeBraced]
  split
  · next hbrace =>
    have hbrace : c = '{' ∨ c = '}' := by simpa using hbrace
    have hc : isSeparator c = false := by rcases hbrace with rfl | rfl <;> decide
    rw [quotation, Quotation.read_doubled_iff hbrace]
    simp [hc]
  · next hbrace =>
    have hc : (Text.isVerbatim c = true → (!isNewLine c) = true) ↔ isSeparator c = false := by
      cases hseparator : isSeparator c with
      | true => simp [isVerbatim_of_isSeparator hseparator, isNewLine, hseparator]
      | false => simpa using fun h => (isNewLine_of_isVerbatim h).trans hseparator
    rw [quotation, Quotation.read_escapeChar_iff (by simpa using hbrace), hc]

/-- A template is one interpolated string, with the expressions in its holes and the texts between
them, if and only if the texts hold no separator, and the expressions are whole and do not start
with a brace. -/
theorem interpolated_means_iff (holes : Holes) (layout : Layout) (pieces : List Piece) :
    readInterpolated holes (template layout pieces) =
        some ((pieces.map parenthesized).flatMap Piece.atoms) ↔
      ∀ piece ∈ pieces.map parenthesized, piece.Forall (isSeparator · = false) fun code =>
        holes.Whole code ∧ code.head? ≠ some '{' := by
  have hwritten : pieces.flatMap templatePiece =
      (pieces.map parenthesized).flatMap (Quotation.bracedPiece escapeBraced) := by
    rw [List.flatMap_map, templatePiece_eq]
  rw [← Quotation.read_bracedPieces_iff (read_char_iff holes), ← hwritten]
  simp [readInterpolated, template, Quotation.braced, quotation]

/-- A separator in a text ends the line that the string stands on. -/
theorem interpolated_refused :
    readInterpolated .matching (template ⟨"", 0⟩ [.text "a\u2028b", .code "x"]) = none := by
  decide +kernel

end Provision.Render.CSharp
