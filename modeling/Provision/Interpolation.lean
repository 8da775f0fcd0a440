import Provision.Program.Expr

/-!
# Interpolated strings

A string of a template holds text and property accesses written as a dollar sign with the access in
braces; a doubled dollar sign is a plain one. One access alone is that access, text alone is a
literal, anything else is a template. Spans count bytes.
-/

namespace Provision.Interpolation

inductive Piece where
  | text (chars : List Char)
  | access (path : Access) (span : Span)
  deriving DecidableEq, Repr

def consText (chars : List Char) : List Piece → List Piece
  | .text more :: rest => .text (chars ++ more) :: rest
  | pieces => .text chars :: pieces

def scanAccess (text : List Char) : Option (Access × List Char) :=
  match Access.scan text with
  | some (access, '}' :: rest) => some (access, rest)
  | _ => none

theorem length_scanAccess {text left : List Char} {access : Access}
    (h : scanAccess text = some (access, left)) : left.length < text.length := by
  unfold scanAccess at h
  split at h
  · next hscan =>
      obtain ⟨-, rfl⟩ := Prod.mk.inj (Option.some.inj h)
      exact Nat.lt_of_succ_lt (Access.length_scan hscan)
  · simp at h

/-- A stretch of text: all up to the next dollar sign, or a dollar sign that is doubled or opens no
access. -/
def scanText : List Char → Option (List Char × List Char)
  | [] => none
  | '$' :: '$' :: rest => some (['$'], rest)
  | '$' :: '{' :: _ => none
  | '$' :: rest => some (['$'], rest)
  | c :: rest => some (c :: rest.takeWhile (· != '$'), rest.dropWhile (· != '$'))

theorem length_scanText {text chars left : List Char} (h : scanText text = some (chars, left)) :
    left.length < text.length := by
  fun_cases scanText text with
  | case1 | case3 => simp [scanText] at h
  | case2 rest =>
      obtain ⟨-, rfl⟩ := Prod.mk.inj (Option.some.inj h)
      exact Nat.lt_succ_of_lt (Nat.lt_succ_self _)
  | case4 rest =>
      simp only [scanText] at h
      obtain ⟨-, rfl⟩ := Prod.mk.inj (Option.some.inj h)
      exact Nat.lt_succ_self _
  | case5 c rest =>
      simp only [scanText] at h
      obtain ⟨-, rfl⟩ := Prod.mk.inj (Option.some.inj h)
      exact Nat.lt_succ_of_le (List.dropWhile_suffix _).length_le

def throughBrace : List Char → Nat
  | [] => 0
  | '}' :: _ => 1
  | c :: rest => c.utf8Size + throughBrace rest

def malformed (offset length : Nat) : Malformed :=
  { message := "malformed interpolation"
    span := ⟨offset, offset + length⟩
    help := some
      "interpolations look like `$\x7bresource.property\x7d`; write `$$` for a literal `$`" }

def unexpected (offset : Nat) : Malformed :=
  { message := "unexpected character in string"
    span := ⟨offset, offset + 1⟩ }

def consumed (text left : List Char) : Nat := Text.byteLength text - Text.byteLength left

def pieces (offset : Nat) (text : List Char) : Except Malformed (List Piece) :=
  match text with
  | [] => .ok []
  | '$' :: '{' :: rest =>
    match h : scanAccess rest with
    | some (access, left) =>
      have := length_scanAccess h
      let stop := offset + consumed text left
      (pieces stop left).map (.access access ⟨offset, stop⟩ :: ·)
    | none => .error (malformed offset (throughBrace text))
  | text =>
    match h : scanText text with
    | some (chars, left) =>
      have := length_scanText h
      (pieces (offset + consumed text left) left).map (consText chars)
    | none => .error (unexpected offset)
termination_by text.length

theorem pieces_nil (offset : Nat) : pieces offset [] = .ok [] := by rw [pieces]

theorem pieces_of_access (offset : Nat) {rest left : List Char} {access : Access}
    (h : scanAccess rest = some (access, left)) :
    pieces offset ('$' :: '{' :: rest) =
      (pieces (offset + consumed ('$' :: '{' :: rest) left) left).map
        (.access access ⟨offset, offset + consumed ('$' :: '{' :: rest) left⟩ :: ·) := by
  rw [pieces]
  split
  · next hsome =>
      obtain ⟨rfl, rfl⟩ := Prod.mk.inj (Option.some.inj (h.symm.trans hsome))
      rfl
  · next hnone => simp [h] at hnone

theorem pieces_of_unreadable (offset : Nat) {rest : List Char} (h : scanAccess rest = none) :
    pieces offset ('$' :: '{' :: rest) =
      .error (malformed offset (throughBrace ('$' :: '{' :: rest))) := by
  rw [pieces]
  split
  · next hsome => simp [h] at hsome
  · rfl

theorem pieces_of_text (offset : Nat) {text chars left : List Char}
    (h : scanText text = some (chars, left)) :
    pieces offset text = (pieces (offset + consumed text left) left).map (consText chars) := by
  rw [pieces.eq_def]
  split
  · simp [scanText] at h
  · simp [scanText] at h
  · split
    · next hsome =>
        obtain ⟨rfl, rfl⟩ := Prod.mk.inj (Option.some.inj (h.symm.trans hsome))
        rfl
    · next hnone => simp [h] at hnone

def Piece.part : Piece → Part Expr
  | .text chars => .text (String.ofList chars)
  | .access path span => .expr (.access path (some span))

def ofPieces (whole : Span) : List Piece → Expr
  | [] => .literal (.string "") (some whole)
  | [.text chars] => .literal (.string (String.ofList chars)) (some whole)
  | [.access path span] => .access path (some span)
  | pieces => .template (pieces.map Piece.part) (some whole)

def parse (text : String) : Except Malformed Expr :=
  (pieces 0 text.toList).map (ofPieces ⟨0, text.utf8ByteSize⟩)

end Provision.Interpolation
