import Provision.Proofs.Render.Templates.Reading

/-!
# Template literals

Between backticks a backslash starts an escape, `${` opens a hole, and a line end of one or two
characters is read as a line feed. The literal of a template says what its pieces say unless a text
holds a carriage return, or a dollar sign and a brace come together from two texts: each text is
escaped for itself.
-/

namespace Provision.Render.TypeScript

def isLineEnd (c : Char) : Bool :=
  c == '\n' || c == '\r' || c.toNat == 0x2028 || c.toNat == 0x2029

/-- What a backslash and one more character stand for. Codes and continued lines are not read. -/
def escaped? : Char → Option Char
  | 'b' => some '\x08'
  | 'f' => some '\x0c'
  | 'n' => some '\n'
  | 'r' => some '\r'
  | 't' => some '\t'
  | 'v' => some '\x0b'
  | mark => if mark.isDigit || mark == 'x' || mark == 'u' || isLineEnd mark then none else some mark

def front (holes : Holes) : List Char → Option (Atom × List Char)
  | [] => none
  | c :: rest =>
    if c = '\\' then (rest.head?.bind escaped?).map (Atom.char ·, rest.tail)
    else if c = backtick then none
    else if c = '$' ∧ rest.head? = some '{' then
      (holes.read rest.tail).map fun (code, behind) => (.code code, behind)
    else if c = '\r' then some (.char '\n', if rest.head? = some '\n' then rest.tail else rest)
    else some (.char c, rest)

private theorem front_shorter {holes : Holes} {text rest : List Char} {atom : Atom}
    (h : front holes text = some (atom, rest)) : rest.length < text.length := by
  have hole {inner code behind : List Char} (hread : holes.read inner = some (code, behind)) :=
    Holes.length_lt_of_read hread
  cases text with
  | nil => cases h
  | cons c tail =>
    rw [front] at h
    grind [= Option.map_eq_some_iff]

def quotation (holes : Holes) : Quotation where
  closing := [backtick]
  front := front holes
  front_closing := rfl
  shorter := front_shorter

def readTemplate (holes : Holes) (text : String) : Option (List Atom) :=
  if text.toList.head? = some backtick then (quotation holes).read text.toList.tail else none

section

variable {holes : Holes}

theorem front_escape {c : Char} (h : escaped? c = some c) (behind : List Char) :
    (quotation holes).front ('\\' :: c :: behind) = some (.char c, behind) := by
  simp [quotation, front, h]

theorem front_verbatim {c : Char} {behind : List Char}
    (hmark : c ≠ '\\' ∧ c ≠ backtick ∧ c ≠ '\r') (hhole : c = '$' → behind.head? ≠ some '{') :
    (quotation holes).front (c :: behind) = some (.char c, behind) := by
  simp_all [quotation, front]

theorem front_hole {behind : List Char} (h : behind.head? = some '{') :
    (quotation holes).front ('$' :: behind) =
      (holes.read behind.tail).map fun (code, rest) => (.code code, rest) := by
  simp [quotation, front, backtick, h]

theorem head_escapeTemplate (text behind : List Char) :
    (escapeTemplate text ++ behind).head? = some '{' ↔ (text ++ behind).head? = some '{' := by
  cases text with
  | nil => rfl
  | cons c rest =>
    rw [escapeTemplate]
    split
    · next hmark =>
      have hbrace : c ≠ '{' := by
        rintro rfl
        exact absurd hmark (by decide)
      simp [hbrace]
    · split
      · next hopens =>
        have hbrace : c ≠ '{' := by
          rintro rfl
          simp at hopens
        simp [hbrace]
      · simp

/-- Whether a text is read as it is with something behind it: it holds no carriage return, and does
not end with a dollar sign before a brace. -/
def Kept (text behind : List Char) : Prop :=
  '\r' ∉ text ∧ ¬(text.getLast? = some '$' ∧ behind.head? = some '{')

private theorem kept_cons_iff {c : Char} {rest behind : List Char} (hline : c ≠ '\r')
    (hhole : c = '$' → rest = [] → behind.head? ≠ some '{') :
    Kept (c :: rest) behind ↔ Kept rest behind := by
  cases rest with
  | nil =>
    have hhole := fun h => hhole h rfl
    simpa [Kept, hline.symm] using hhole
  | cons d rest => simp [Kept, hline.symm, List.getLast?_cons_cons]

theorem read_text_iff (text behind : List Char) (more : List Atom) :
    (quotation holes).read (escapeTemplate text ++ behind) = some (text.map .char ++ more) ↔
      Kept text behind ∧ (quotation holes).read behind = some more := by
  induction text with
  | nil => simp [escapeTemplate, Kept]
  | cons c rest ih =>
    rw [List.map_cons, List.cons_append, Quotation.read_eq_cons_iff]
    -- The front is the character itself, and the rest of the text is left.
    have step {written : List Char} (hline : c ≠ '\r')
        (hhole : c = '$' → rest = [] → behind.head? ≠ some '{')
        (hfront : (quotation holes).front written =
          some (.char c, escapeTemplate rest ++ behind)) :
        (∃ left, (quotation holes).front written = some (.char c, left) ∧
            (quotation holes).read left = some (rest.map .char ++ more)) ↔
          Kept (c :: rest) behind ∧ (quotation holes).read behind = some more := by
      rw [kept_cons_iff hline hhole, ← ih, hfront]
      simp
    rw [escapeTemplate]
    split
    · next hmark =>
      have hescape : escaped? c = some c ∧ c ≠ '\r' ∧ c ≠ '$' := by
        simp only [Bool.or_eq_true, beq_iff_eq] at hmark
        rcases hmark with rfl | rfl <;> decide
      exact step hescape.2.1 (fun h => absurd h hescape.2.2) (front_escape hescape.1 _)
    · split
      · next hopens =>
        simp only [Bool.and_eq_true, beq_iff_eq] at hopens
        obtain ⟨rfl, hopens⟩ := hopens
        exact step (by decide) (fun _ h => by simp [h] at hopens) (front_escape (by decide) _)
      · next hmark hopens =>
        rw [List.cons_append]
        by_cases hline : c = '\r'
        · subst hline
          simp [quotation, front, backtick, Kept]
        · by_cases hhole : c = '$' ∧ (escapeTemplate rest ++ behind).head? = some '{'
          · obtain ⟨rfl, hbrace⟩ := hhole
            have hsplit : rest = [] ∧ behind.head? = some '{' := by
              rw [head_escapeTemplate] at hbrace
              cases rest <;> simp_all
            refine iff_of_false ?_ (by simp [Kept, hsplit])
            rintro ⟨_, hfront, -⟩
            rw [front_hole hbrace] at hfront
            obtain ⟨_, -, heq⟩ := Option.map_eq_some_iff.mp hfront
            cases heq
          · refine step hline ?_ (front_verbatim (by simp_all) (by simp_all))
            rintro rfl rfl
            simpa [escapeTemplate] using hhole

def leadingText : List Piece → List Char
  | .text value :: rest => value.toList ++ leadingText rest
  | _ => []

/-- Whether a text ends with a dollar sign where a brace comes next, from another text. -/
def Splits : List Piece → Prop
  | [] => False
  | .code _ :: rest => Splits rest
  | .text value :: rest =>
    (value.toList.getLast? = some '$' ∧ (leadingText rest).head? = some '{') ∨ Splits rest

theorem head_pieces (pieces : List Piece) :
    (pieces.flatMap templatePiece ++ [backtick]).head? = some '{' ↔
      (leadingText pieces).head? = some '{' := by
  induction pieces with
  | nil => decide
  | cons piece rest ih =>
    cases piece with
    | code value => simp [templatePiece, leadingText]
    | text value =>
      rw [List.flatMap_cons, List.append_assoc, templatePiece, head_escapeTemplate, leadingText]
      cases value.toList with
      | nil => exact ih
      | cons c text => simp

private theorem read_code_iff (value : String) (behind : List Char) (more : List Atom) :
    (quotation holes).read (templatePiece (.code value) ++ behind) =
        some (.code value.toList :: more) ↔
      holes.Whole value.toList ∧ (quotation holes).read behind = some more := by
  refine Quotation.read_hole_iff ?_
  rw [templatePiece, List.cons_append, List.cons_append, front_hole rfl]
  simp

theorem read_pieces_iff (pieces : List Piece) :
    (quotation holes).read (pieces.flatMap templatePiece ++ [backtick]) =
        some (pieces.flatMap Piece.atoms) ↔
      (∀ code, .code code ∈ pieces → holes.Whole code.toList) ∧
        (∀ text, .text text ∈ pieces → '\r' ∉ text.toList) ∧ ¬Splits pieces := by
  induction pieces with
  | nil =>
    have hclosing : (quotation holes).read [backtick] = some [] := Quotation.read_closing _
    simp [Splits, hclosing]
  | cons piece rest ih =>
    rw [List.flatMap_cons, List.flatMap_cons, List.append_assoc]
    cases piece with
    | code value =>
      rw [Piece.atoms, List.singleton_append, read_code_iff, ih, Splits]
      simp only [List.mem_cons, Piece.code.injEq, reduceCtorEq, false_or, forall_eq_or_imp,
        and_assoc]
    | text value =>
      rw [templatePiece, Piece.atoms, read_text_iff, ih, Kept, head_pieces, Splits]
      simp only [List.mem_cons, Piece.text.injEq, reduceCtorEq, false_or, forall_eq_or_imp]
      grind

end

/-- The literal of a template is one literal from end to end, with the expressions in its holes and
the texts between them, if and only if the expressions are whole, no text holds a carriage return
and no two texts make the opening of a hole between them. -/
theorem template_read_iff (holes : Holes) (layout : Layout) (pieces : List Piece) :
    readTemplate holes (template layout pieces) = some (pieces.flatMap Piece.atoms) ↔
      (∀ code, .code code ∈ pieces → holes.Whole code.toList) ∧
        (∀ text, .text text ∈ pieces → '\r' ∉ text.toList) ∧ ¬Splits pieces := by
  simp [readTemplate, template, read_pieces_iff]

/-- A dollar sign and a brace from two texts open a hole, and a carriage return is read as a line
feed. -/
theorem template_misread :
    readTemplate .matching (template ⟨"", 0⟩ [.text "$", .text "\x7ba\x7d", .code "x"]) =
        some [.code ['a'], .code ['x']] ∧
      readTemplate .matching (template ⟨"", 0⟩ [.text "a\rb", .code "x"]) =
        some [.char 'a', .char '\n', .char 'b', .code ['x']] := by
  decide +kernel

end Provision.Render.TypeScript
