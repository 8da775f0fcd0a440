import Mathlib.Data.List.Forall2
import Mathlib.Data.List.Infix
import Provision.Proofs.Render.Templates.Braces

/-!
# Formatted strings

A template with an expression that may not stand in a formatted string is a list of strings that is
joined. Otherwise it is a formatted string, between three quotes if an expression has a quote. It
means what its pieces mean unless an expression starts with a brace, or holds a carriage return or
three quotes, as a formatted string between three quotes does.
-/

namespace Provision.Render.Python

def mark (triple : Bool) : List Char := if triple then ['"', '"', '"'] else ['"']

/-- Whether an expression may stand in a formatted string: before version 3.12 it may hold no
backslash, no comment, no line end, and not the mark of the string. -/
def allowed (triple : Bool) (code : List Char) : Bool :=
  code.all (fun c => c != '\\' && c != '#' && c != '\n' && c != '\r')
    && !decide (mark triple <:+: code)

/-- Formatted strings. Between three quotes a line feed stands for itself. -/
def quotation (holes : Holes) (triple : Bool) : Quotation :=
  .braced (holes.only (allowed triple)) (fun c => c != '\r' && (triple || c != '\n')) triple

def readFormatted (holes : Holes) (text : String) : Option (List Atom) :=
  if ('f' :: mark true).isPrefixOf text.toList then
    (quotation holes true).read (text.toList.drop 4)
  else if ('f' :: mark false).isPrefixOf text.toList then
    (quotation holes false).read (text.toList.drop 2)
  else none

private theorem formattedPiece_eq (triple : Bool) :
    formattedPiece triple = Quotation.bracedPiece (escapeChar triple true) := by
  funext piece
  cases piece <;> rfl

theorem read_char_iff (holes : Holes) (triple : Bool) (c : Char) (behind : List Char)
    (more : List Atom) :
    (quotation holes triple).read (escapeChar triple true c ++ behind) = some ([.char c] ++ more) ↔
      True ∧ (quotation holes triple).read behind = some more := by
  rw [escapeChar_eq, Bool.true_and, true_and]
  split
  · next hbrace => exact Quotation.read_doubled_iff (by simpa using hbrace) behind more
  · next hbrace =>
    split
    · next hline =>
      obtain ⟨rfl, rfl⟩ : triple = true ∧ c = '\n' := by simpa using hline
      rw [quotation, Quotation.read_verbatim_iff (by decide)]
      simp
    · rw [quotation, Quotation.read_escapeChar_iff (by simpa using hbrace)]
      have hc : Text.isVerbatim c = true → (c != '\r' && (triple || c != '\n')) = true := by
        intro hverbatim
        have hline : c ≠ '\r' ∧ c ≠ '\n' := by
          constructor <;> rintro rfl <;> exact absurd hverbatim (by decide)
        simp [hline]
      exact and_iff_right hc

theorem read_pieces_iff (holes : Holes) (triple : Bool) (pieces : List Piece) :
    (quotation holes triple).read (pieces.flatMap (formattedPiece triple) ++ mark triple) =
        some (pieces.flatMap Piece.atoms) ↔
      ∀ code, .code code ∈ pieces → holes.Whole code.toList ∧
        allowed triple code.toList = true ∧ code.toList.head? ≠ some '{' := by
  have hpieces := Quotation.read_bracedPieces_iff (read_char_iff holes triple) pieces
  rw [← formattedPiece_eq] at hpieces
  refine hpieces.trans ?_
  constructor
  · intro h code hcode
    obtain ⟨hwhole, hhead⟩ := h _ hcode
    obtain ⟨hwhole, hallowed⟩ := Holes.whole_only_iff.mp hwhole
    exact ⟨hwhole, hallowed, hhead⟩
  · intro h piece hpiece
    cases piece with
    | text value => exact fun _ _ => trivial
    | code value =>
      obtain ⟨hwhole, hallowed, hhead⟩ := h value hpiece
      exact ⟨Holes.whole_only_iff.mpr ⟨hwhole, hallowed⟩, hhead⟩

private theorem head_escapeChar (triple : Bool) (c : Char) :
    (escapeChar triple true c).head? ≠ some '"' := by
  rw [escapeChar_eq, Bool.true_and]
  split
  · rintro heq
    cases heq
    contradiction
  · split
    · decide
    · cases hverbatim : Text.isVerbatim c with
      | true =>
        rw [(Text.escapeChar_cases c).1 hverbatim]
        rintro heq
        cases heq
        exact absurd hverbatim (by decide)
      | false =>
        obtain ⟨inner, heq, -⟩ := ((Text.escapeChar_cases c).2 hverbatim).escaped? []
        rw [List.append_nil] at heq
        simp [heq]

theorem head_pieces (triple : Bool) (pieces : List Piece) :
    (pieces.flatMap (formattedPiece triple)).head? ≠ some '"' := by
  have flat {α : Type} {write : α → List Char} (h : ∀ a, (write a).head? ≠ some '"')
      (items : List α) : (items.flatMap write).head? ≠ some '"' := by
    induction items with
    | nil => simp
    | cons a rest ih => grind [List.head?_append]
  refine flat (fun piece => ?_) pieces
  cases piece with
  | text value => exact flat (head_escapeChar triple) value.toList
  | code value => simp [formattedPiece]

/-- Between the marks that are chosen, only a carriage return and three quotes are in the way of
an expression. -/
theorem allowed_iff {pieces : List Piece} {code : String} (hjoin : pieces.any needsJoin = false)
    (hcode : .code code ∈ pieces) :
    allowed (pieces.any needsTriple) code.toList = true ↔
      '\r' ∉ code.toList ∧ ¬mark true <:+: code.toList := by
  have hplain : ∀ c ∈ code.toList, c ≠ '\\' ∧ c ≠ '#' ∧ c ≠ '\n' := by
    have hpiece := List.any_eq_false.mp hjoin _ hcode
    simpa [needsJoin, and_assoc] using hpiece
  have hmark : mark (pieces.any needsTriple) <:+: code.toList ↔ mark true <:+: code.toList := by
    cases htriple : pieces.any needsTriple with
    | true => rfl
    | false =>
      have hquote : '"' ∉ code.toList := by
        have hpiece := List.any_eq_false.mp htriple _ hcode
        simpa [needsTriple] using hpiece
      exact iff_of_false (fun h => hquote (h.subset (by decide)))
        fun h => hquote (h.subset (by decide))
  simp only [allowed, hmark, Bool.and_eq_true, List.all_eq_true, bne_iff_ne, Bool.not_eq_true',
    decide_eq_false_iff_not]
  refine and_congr_left fun _ => ⟨fun h hreturn => (h _ hreturn).2 rfl, fun h c hc => ?_⟩
  obtain ⟨hslash, hcomment, hline⟩ := hplain c hc
  exact ⟨⟨⟨hslash, hcomment⟩, hline⟩, by rintro rfl; exact h hc⟩

private theorem readFormatted_template (holes : Holes) (layout : Layout) {pieces : List Piece}
    (hjoin : pieces.any needsJoin = false) :
    readFormatted holes (template layout pieces) =
      (quotation holes (pieces.any needsTriple)).read
        (pieces.flatMap (formattedPiece (pieces.any needsTriple)) ++
          mark (pieces.any needsTriple)) := by
  have hhead := head_pieces (pieces.any needsTriple) pieces
  rw [template, if_neg (by simp [hjoin])]
  cases htriple : pieces.any needsTriple with
  | true => simp [readFormatted, mark]
  | false =>
    rw [htriple] at hhead
    have hsingle : ¬['"', '"'] <+: pieces.flatMap (formattedPiece false) ++ ['"'] := by
      cases hinside : pieces.flatMap (formattedPiece false) with
      | nil => decide
      | cons c rest =>
        intro hprefix
        rw [hinside, List.head?_cons] at hhead
        exact hhead (congrArg some (List.cons_prefix_cons.mp hprefix).1.symm)
    simp [readFormatted, mark, hsingle]

def IsItem : Piece → String → Prop
  | .text value, item => ∃ written, item = String.ofList ('"' :: written ++ ['"']) ∧
      Text.decode written = some value.toList
  | .code value, item => item = "str(" ++ value ++ ")"

def Joins (layout : Layout) (pieces : List Piece) (text : String) : Prop :=
  ∃ items, text = layout.list "\"\".join([" items "])" ∧ List.Forall₂ IsItem pieces items

private theorem exists_list_eq_append (layout : Layout) (opening : String) (items : List String)
    (closing : String) : ∃ rest, layout.list opening items closing = opening ++ rest := by
  rw [Layout.list, Layout.block]
  split
  · exact ⟨_, String.append_assoc⟩
  · split
    · exact ⟨closing, rfl⟩
    · simp only [String.append_assoc, exists_apply_eq_apply']

private theorem joins_template_iff (layout : Layout) (pieces : List Piece) :
    Joins layout pieces (template layout pieces) ↔ pieces.any needsJoin = true := by
  rw [template]
  split
  · next hjoin =>
    refine iff_of_true ⟨_, rfl, ?_⟩ hjoin
    refine List.forall₂_map_right_iff.mpr (List.forall₂_same.mpr fun piece _ => ?_)
    cases piece with
    | text value =>
      exact ⟨_, string_eq value, Text.decode_of_spells (Text.spells_escape value.toList)⟩
    | code value => rfl
  · next hjoin =>
    refine iff_of_false ?_ hjoin
    rintro ⟨items, heq, -⟩
    obtain ⟨rest, hlist⟩ := exists_list_eq_append layout "\"\".join([" items "])"
    have hhead := congrArg (·.toList.head?) (heq.trans hlist)
    simp at hhead

/-- A template is a list that is joined, or a formatted string with its expressions in the holes and
its texts between them, if and only if some expression asks for the list, or all of them are whole
and may stand in the string. -/
theorem template_joined_or_formatted_iff (holes : Holes) (layout : Layout) (pieces : List Piece) :
    (Joins layout pieces (template layout pieces) ∨
        readFormatted holes (template layout pieces) = some (pieces.flatMap Piece.atoms)) ↔
      pieces.any needsJoin = true ∨ ∀ code, .code code ∈ pieces → holes.Whole code.toList ∧
        code.toList.head? ≠ some '{' ∧ '\r' ∉ code.toList ∧ ¬mark true <:+: code.toList := by
  rw [joins_template_iff]
  cases hjoin : pieces.any needsJoin with
  | true => simp
  | false =>
    rw [readFormatted_template holes layout hjoin, read_pieces_iff]
    simp only [Bool.false_eq_true, false_or]
    refine forall₂_congr fun code hcode => ?_
    rw [allowed_iff hjoin hcode]
    grind

/-- Two braces at the start of a hole are read as one of the text, and a formatted string between
three quotes ends the one that it stands in. -/
theorem formatted_misread :
    readFormatted .matching (template ⟨"", 0⟩ [.text "a-", .code "\x7b\x7d"]) =
        some ("a-\x7b\x7d".toList.map .char) ∧
      readFormatted .matching
          (template ⟨"", 0⟩ [.text "a-", .code "f\"\"\"b-\x7btags[\"env\"]\x7d\"\"\""]) = none := by
  decide +kernel

end Provision.Render.Python
