import Mathlib.Data.List.Forall2
import Provision.Proofs.Interpolation.Reading

/-!
# Writing interpolated strings

The writer doubles every dollar sign of a text, puts accesses into braces and quotes what is no
property name. Main statement: a string that was written is read, and what is read are the
segments that were written, with texts that stand side by side joined and empty ones dropped. The
span of each access is where it stands in the string.
-/

namespace Provision.Interpolation

def PropertyName : Type := { name : String // Access.isName name.toList = true }

/-- An accessor that can be written: the field of a property name, an index of 64 bits, a key. -/
inductive Step where
  | field (name : PropertyName)
  | index (position : Int64)
  | key (name : String)

namespace Step

def accessor : Step → Accessor
  | .field name => .field name.val
  | .index position => .index position.toInt
  | .key name => .key name

def write : Step → List Char
  | .field name => '.' :: name.val.toList
  | .index position => '[' :: (toString position.toInt).toList ++ [']']
  | .key name => '[' :: Access.quoteKey name.toList ++ [']']

end Step

structure Path where
  root : String
  steps : List Step

namespace Path

def access (path : Path) : Access := ⟨path.root, path.steps.map Step.accessor⟩

def writeRoot (root : String) : List Char :=
  if Access.isName root.toList then root.toList else '[' :: Access.quoteKey root.toList ++ [']']

def write (path : Path) : List Char := writeRoot path.root ++ path.steps.flatMap Step.write

end Path

inductive Segment where
  | text (value : String)
  | access (path : Path)

def doubleDollar (c : Char) : List Char := if c = '$' then ['$', '$'] else [c]

def Segment.write : Segment → List Char
  | .text value => value.toList.flatMap doubleDollar
  | .access path => '$' :: '{' :: path.write ++ ['}']

def write (segments : List Segment) : String := String.ofList (segments.flatMap Segment.write)

private theorem digitsValue_toDigits (number : Nat) :
    Access.digitsValue (Nat.toDigits 10 number) = number := by
  rw [Access.digitsValue_eq_ofDigitChars]
  exact Nat.ofDigitChars_toDigits (by decide) (by decide)

theorem isIndex_toDigits (negative : Bool) (number : Nat) {position : Int64}
    (h : position.toInt = if negative then -(number : Int) else number) :
    Access.IsIndex negative (Nat.toDigits 10 number) ∧
      Access.signedValue negative (Nat.toDigits 10 number) = position.toInt := by
  have hvalue : Access.signedValue negative (Nat.toDigits 10 number) = position.toInt := by
    rw [Access.signedValue, digitsValue_toDigits, h]
  have hlimit : Access.indexLimit = 9223372036854775808 := rfl
  have hlow := position.le_toInt
  have hhigh := position.toInt_lt
  exact ⟨⟨Nat.toDigits_ne_nil,
    fun c hc => Nat.isDigit_of_mem_toDigits (by decide) (by decide) hc, by omega, by omega⟩, hvalue⟩

private theorem exists_digits (position : Int64) :
    ∃ negative digits, Access.IsIndex negative digits ∧
      Access.signedValue negative digits = position.toInt ∧
      (toString position.toInt).toList = Access.sign negative ++ digits := by
  cases hposition : position.toInt with
  | ofNat number =>
    obtain ⟨hindex, hvalue⟩ := isIndex_toDigits false number hposition
    exact ⟨false, _, hindex, hvalue.trans hposition, String.toList_ofList⟩
  | negSucc number =>
    obtain ⟨hindex, hvalue⟩ :=
      isIndex_toDigits true (number + 1) (hposition.trans (Int.negSucc_eq number))
    refine ⟨true, _, hindex, hvalue.trans hposition, ?_⟩
    change ("-" ++ Nat.repr (number + 1)).toList = _
    rw [String.toList_append, Nat.repr_eq_ofList_toDigits]
    exact congrArg ('-' :: ·) String.toList_ofList

theorem Step.spelled (step : Step) : Access.AccessorSpelled step.accessor step.write := by
  cases step with
  | field name =>
    have hspelled := Access.AccessorSpelled.field name.property
    rwa [String.ofList_toList] at hspelled
  | index position =>
    obtain ⟨negative, digits, hindex, hvalue, hwritten⟩ := exists_digits position
    rw [accessor, write, hwritten, ← hvalue]
    exact .index hindex
  | key name =>
    have hspelled := Access.AccessorSpelled.key name.toList
    rwa [String.ofList_toList] at hspelled

private theorem accessorsSpelled_steps (steps : List Step) :
    Access.AccessorsSpelled (steps.map Step.accessor) (steps.flatMap Step.write) := by
  induction steps with
  | nil => exact .nil
  | cons step rest ih => exact .cons step.spelled ih

private theorem rootSpelled_writeRoot (root : String) :
    Access.RootSpelled root (Path.writeRoot root) := by
  rw [Path.writeRoot]
  split
  · next hname =>
    have hspelled := Access.RootSpelled.name hname
    rwa [String.ofList_toList] at hspelled
  · have hspelled := Access.RootSpelled.quoted root.toList
    rwa [String.ofList_toList] at hspelled

theorem Path.spelled (path : Path) : path.access.Spelled path.write :=
  ⟨_, _, rootSpelled_writeRoot path.root, accessorsSpelled_steps path.steps, rfl⟩

def putText : List Char → List Piece → List Piece
  | [], rest => rest
  | chars, rest => consText chars rest

private theorem consText_putText (c : Char) (chars : List Char) (rest : List Piece) :
    consText [c] (putText chars rest) = putText (c :: chars) rest := by
  cases chars with
  | nil => rfl
  | cons d more => exact consText_consText [c] (d :: more) rest

private theorem spelled_doubleDollar (c : Char) (rest : List Char) :
    (Mark.char c).Spelled rest (doubleDollar c) := by
  rw [doubleDollar]
  split
  · next hdollar =>
    rw [hdollar]
    exact .doubled
  · next hplain => exact .plain hplain

private theorem pieces_doubleDollar (offset : Nat) (chars rest : List Char) :
    pieces offset (chars.flatMap doubleDollar ++ rest) =
      (pieces (offset + Text.byteLength (chars.flatMap doubleDollar)) rest).map
        (putText chars) := by
  induction chars generalizing offset with
  | nil => exact (congrFun Except.map_id (pieces offset rest)).symm
  | cons c more ih =>
    rw [List.flatMap_cons, List.append_assoc, pieces_unit offset (spelled_doubleDollar c _), ih,
      map_map, Text.byteLength_append, Nat.add_assoc]
    exact congrArg (Except.map · _) (funext (consText_putText c more))

def located (offset : Nat) : List Segment → List Piece
  | [] => []
  | segment :: rest =>
    let stop := offset + Text.byteLength segment.write
    match segment with
    | .text value => putText value.toList (located stop rest)
    | .access path => .access path.access ⟨offset, stop⟩ :: located stop rest

theorem pieces_write (offset : Nat) (segments : List Segment) :
    pieces offset (segments.flatMap Segment.write) = .ok (located offset segments) := by
  induction segments generalizing offset with
  | nil => exact pieces_nil offset
  | cons segment rest ih =>
    rw [List.flatMap_cons]
    cases segment with
    | text value =>
      rw [Segment.write, pieces_doubleDollar, ih]
      rfl
    | access path =>
      have hunit : (Mark.access path.access).Spelled (rest.flatMap Segment.write)
          (Segment.access path).write := .access path.spelled
      rw [pieces_unit offset hunit, ih]
      rfl

def joinText (value : String) : List Segment → List Segment
  | .text more :: rest => .text (value ++ more) :: rest
  | rest => if value = "" then rest else .text value :: rest

/-- The segments with texts that stand side by side joined and empty ones dropped. -/
def joined : List Segment → List Segment
  | [] => []
  | .text value :: rest => joinText value (joined rest)
  | .access path :: rest => .access path :: joined rest

def Cuts (source : String) (span : Span) (text : String) : Prop :=
  ∃ before after, source = before ++ text ++ after ∧
    span = ⟨before.utf8ByteSize, (before ++ text).utf8ByteSize⟩

inductive Carried (source : String) : Segment → Part Expr → Prop
  | text (value : String) : Carried source (.text value) (.text value)
  | access {path : Path} {span : Span}
      (h : Cuts source span (String.ofList (Segment.access path).write)) :
      Carried source (.access path) (.expr (.access path.access (some span)))

private theorem joinText_empty (segments : List Segment) : joinText "" segments = segments := by
  fun_cases joinText "" segments with
  | case1 more rest => rw [String.empty_append]
  | case2 => rfl
  | case3 _ _ hne => exact absurd rfl hne

private theorem putText_of_ne_empty {value : String} (h : value ≠ "") (rest : List Piece) :
    putText value.toList rest = consText value.toList rest := by
  cases hchars : value.toList with
  | nil => exact absurd (String.toList_eq_nil_iff.mp hchars) h
  | cons c more => rfl

theorem carried_putText {source value : String} {segments : List Segment} {found : List Piece}
    (h : List.Forall₂ (Carried source) segments (found.map Piece.part)) :
    List.Forall₂ (Carried source) (joinText value segments)
      ((putText value.toList found).map Piece.part) := by
  by_cases hempty : value = ""
  · subst hempty
    rw [joinText_empty]
    exact h
  · have htext : (Piece.text value.toList).part = .text value := by
      rw [Piece.part, String.ofList_toList]
    rw [putText_of_ne_empty hempty]
    cases found with
    | nil =>
      cases h with
      | nil =>
        rw [joinText, if_neg hempty, consText, List.map_cons, htext]
        · exact .cons (.text value) .nil
        all_goals simp
    | cons piece rest =>
      rw [List.map_cons] at h
      cases h with
      | @cons segment _ others _ hfirst hrest =>
        cases piece with
        | text chars =>
          have hjoin : (Piece.text (value.toList ++ chars)).part =
              .text (value ++ String.ofList chars) := by
            rw [Piece.part, String.ofList_append, String.ofList_toList]
          cases hfirst
          rw [joinText, consText, List.map_cons, hjoin]
          exact .cons (.text _) hrest
        | access path span =>
          cases hfirst with
          | access hspan =>
            rw [joinText, if_neg hempty, consText, List.map_cons, htext]
            · exact .cons (.text value) (.cons (.access hspan) hrest)
            all_goals simp

private theorem carried_located (before : List Char) (segments : List Segment) :
    List.Forall₂ (Carried (String.ofList (before ++ segments.flatMap Segment.write)))
      (joined segments) ((located (Text.byteLength before) segments).map Piece.part) := by
  induction segments generalizing before with
  | nil => exact .nil
  | cons segment rest ih =>
    have hrest := ih (before ++ segment.write)
    rw [List.append_assoc, Text.byteLength_append] at hrest
    cases segment with
    | text value => exact carried_putText hrest
    | access path =>
      refine .cons (.access ⟨String.ofList before,
        String.ofList (rest.flatMap Segment.write), ?_, ?_⟩) hrest
      · rw [List.flatMap_cons, ← List.append_assoc, String.ofList_append, String.ofList_append]
      · rw [← String.ofList_append, ← Text.byteLength_eq_utf8ByteSize,
          ← Text.byteLength_eq_utf8ByteSize, Text.byteLength_append]

/-- An expression made of parts: a text or an access alone is itself, nothing is the empty text, and
all else is a template. -/
def ofParts (whole : Span) : List (Part Expr) → Expr
  | [] => .literal (.string "") (some whole)
  | [.text value] => .literal (.string value) (some whole)
  | [.expr value] => value
  | parts => .template parts (some whole)

private theorem ofPieces_eq_ofParts (whole : Span) (found : List Piece) :
    ofPieces whole found = ofParts whole (found.map Piece.part) := by
  fun_cases ofPieces whole found with
  | case1 => rfl
  | case2 => rfl
  | case3 => rfl
  | case4 _ hnil htext haccess =>
    cases found with
    | nil => exact absurd rfl hnil
    | cons first rest =>
      cases rest with
      | nil =>
        cases first with
        | text chars => exact absurd rfl (htext chars)
        | access path span => exact absurd rfl (haccess path span)
      | cons second others => cases first <;> rfl

theorem parse_write (segments : List Segment) :
    ∃ parts, List.Forall₂ (Carried (write segments)) (joined segments) parts ∧
      parse (write segments) =
        .ok (ofParts ⟨0, (write segments).utf8ByteSize⟩ parts) := by
  refine ⟨(located 0 segments).map Piece.part, carried_located [] segments, ?_⟩
  have hread : pieces 0 (write segments).toList = .ok (located 0 segments) := by
    rw [write, String.toList_ofList, pieces_write]
  rw [parse, hread, ← ofPieces_eq_ofParts]
  rfl

end Provision.Interpolation
