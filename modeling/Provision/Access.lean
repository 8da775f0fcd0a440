import Provision.Diagnostic
import Provision.Text.Quoted

/-!
# Property accesses

A path such as `bucket.tags["Name"][0]`: a root name and the fields, keys and indices read from it
in turn. The root is a property name or a quoted key in brackets.
-/

namespace Provision

inductive Accessor where
  | field (name : String)
  | index (position : Int)
  | key (name : String)
  deriving DecidableEq, Repr

structure Access where
  root : String
  accessors : List Accessor
  deriving DecidableEq, Repr

def Accessor.text : Accessor → String
  | .field name => "." ++ name
  | .index position => "[" ++ toString position ++ "]"
  | .key name => "[" ++ Text.display name ++ "]"

def Access.text (access : Access) : String :=
  access.root ++ String.join (access.accessors.map Accessor.text)

namespace Access

def isNameStart (c : Char) : Bool := c.isAlpha || c == '_' || c == '$'

def isNamePart (c : Char) : Bool := c.isAlphanum || c == '_' || c == '$' || c == '-'

def scanName (text : List Char) : Option (List Char × List Char) :=
  match text with
  | [] => none
  | c :: _ =>
    if isNameStart c then some (text.takeWhile isNamePart, text.dropWhile isNamePart) else none

/-- A quoted key after its opening quote; only the quote and the backslash are escaped. -/
def scanQuoted (read : List Char) : List Char → Option (List Char × List Char)
  | '"' :: rest => some (read.reverse, rest)
  | '\\' :: '"' :: rest => scanQuoted ('"' :: read) rest
  | '\\' :: '\\' :: rest => scanQuoted ('\\' :: read) rest
  | '\\' :: _ => none
  | c :: rest => scanQuoted (c :: read) rest
  | [] => none

def digitsValue (digits : List Char) : Nat :=
  digits.foldl (fun value digit => value * 10 + (digit.toNat - '0'.toNat)) 0

theorem digitsValue_eq_ofDigitChars (digits : List Char) :
    digitsValue digits = Nat.ofDigitChars 10 digits 0 := by
  have hstep : (fun (value : Nat) (digit : Char) => value * 10 + (digit.toNat - '0'.toNat)) =
      fun value digit => 10 * value + (digit.toNat - '0'.toNat) := by
    funext value digit
    rw [Nat.mul_comm]
  rw [digitsValue, hstep]
  rfl

def splitSign : List Char → Bool × List Char
  | '-' :: rest => (true, rest)
  | rest => (false, rest)

def signedValue (negative : Bool) (digits : List Char) : Int :=
  if negative then -digitsValue digits else digitsValue digits

def indexLimit : Int := Nat.pow 2 63

def scanIndex (text : List Char) : Option (Int × List Char) :=
  let (negative, text) := splitSign text
  let digits := text.takeWhile Char.isDigit
  let position := signedValue negative digits
  if digits.isEmpty || position < -indexLimit || indexLimit ≤ position then none
  else some (position, text.dropWhile Char.isDigit)

def closeBracket {α : Type} : Option (α × List Char) → Option (α × List Char)
  | some (value, ']' :: rest) => some (value, rest)
  | _ => none

def scanAccessor : List Char → Option (Accessor × List Char)
  | '.' :: rest => (scanName rest).map fun (name, rest) => (.field (String.ofList name), rest)
  | '[' :: '"' :: rest =>
    (closeBracket (scanQuoted [] rest)).map fun (name, rest) => (.key (String.ofList name), rest)
  | '[' :: rest =>
    (closeBracket (scanIndex rest)).map fun (position, rest) => (.index position, rest)
  | _ => none

/-! What is read is taken off the front, so that reading one accessor after another ends. -/

theorem isNamePart_of_isNameStart {c : Char} (h : isNameStart c = true) : isNamePart c = true := by
  change (c.isAlpha || c.isDigit || c == '_' || c == '$' || c == '-') = true
  simp only [isNameStart, Bool.or_eq_true] at h ⊢
  rcases h with (h | h) | h <;> simp [h]

theorem length_scanName {text name rest : List Char} (h : scanName text = some (name, rest)) :
    rest.length < text.length := by
  cases text with
  | nil => simp [scanName] at h
  | cons c more =>
      simp only [scanName] at h
      split at h
      · next hstart =>
          obtain ⟨-, rfl⟩ := Prod.mk.inj (Option.some.inj h)
          rw [List.dropWhile_cons_of_pos (isNamePart_of_isNameStart hstart)]
          exact Nat.lt_succ_of_le (List.dropWhile_suffix isNamePart).length_le
      · simp at h

theorem length_scanQuoted {read text key rest : List Char}
    (h : scanQuoted read text = some (key, rest)) : rest.length < text.length := by
  fun_induction scanQuoted read text with
  | case1 => simp_all
  | case2 _ _ ih | case3 _ _ ih =>
      have := ih h
      simp only [List.length_cons]
      omega
  | case4 | case6 => simp at h
  | case5 _ _ _ _ _ _ _ ih => exact Nat.lt_succ_of_lt (ih h)

theorem length_splitSign (text : List Char) : (splitSign text).2.length ≤ text.length := by
  fun_cases splitSign text with
  | case1 => exact Nat.le_succ _
  | case2 => exact Nat.le_refl _

theorem length_scanIndex {text rest : List Char} {position : Int}
    (h : scanIndex text = some (position, rest)) : rest.length ≤ text.length := by
  simp only [scanIndex] at h
  split at h
  · simp at h
  · obtain ⟨-, rfl⟩ := Prod.mk.inj (Option.some.inj h)
    exact Nat.le_trans (List.dropWhile_suffix Char.isDigit).length_le (length_splitSign text)

theorem length_closeBracket {α : Type} {read : Option (α × List Char)} {value : α}
    {rest : List Char} (h : closeBracket read = some (value, rest)) :
    ∃ inner, read = some (value, inner) ∧ rest.length < inner.length := by
  unfold closeBracket at h
  split at h
  · obtain ⟨rfl, rfl⟩ := Prod.mk.inj (Option.some.inj h)
    exact ⟨_, rfl, Nat.lt_succ_self _⟩
  · simp at h

theorem length_scanAccessor {text rest : List Char} {accessor : Accessor}
    (h : scanAccessor text = some (accessor, rest)) : rest.length < text.length := by
  unfold scanAccessor at h
  split at h
  · obtain ⟨⟨name, left⟩, hname, heq⟩ := Option.map_eq_some_iff.mp h
    obtain ⟨-, rfl⟩ := Prod.mk.inj heq
    exact Nat.lt_succ_of_lt (length_scanName hname)
  · obtain ⟨⟨key, left⟩, hclosed, heq⟩ := Option.map_eq_some_iff.mp h
    obtain ⟨-, rfl⟩ := Prod.mk.inj heq
    obtain ⟨inner, hquoted, hlt⟩ := length_closeBracket hclosed
    exact Nat.lt_succ_of_lt (Nat.lt_succ_of_lt (Nat.lt_trans hlt (length_scanQuoted hquoted)))
  · obtain ⟨⟨position, left⟩, hclosed, heq⟩ := Option.map_eq_some_iff.mp h
    obtain ⟨-, rfl⟩ := Prod.mk.inj heq
    obtain ⟨inner, hindex, hlt⟩ := length_closeBracket hclosed
    exact Nat.lt_succ_of_lt (Nat.lt_of_lt_of_le hlt (length_scanIndex hindex))
  · simp at h

def scanAccessors (text : List Char) : List Accessor × List Char :=
  match h : scanAccessor text with
  | none => ([], text)
  | some (accessor, rest) =>
    have := length_scanAccessor h
    let (accessors, rest) := scanAccessors rest
    (accessor :: accessors, rest)
termination_by text.length

theorem scanAccessors_of_none {text : List Char} (h : scanAccessor text = none) :
    scanAccessors text = ([], text) := by
  rw [scanAccessors]
  split
  · rfl
  · next hsome => simp [h] at hsome

theorem scanAccessors_of_some {text rest : List Char} {accessor : Accessor}
    (h : scanAccessor text = some (accessor, rest)) :
    scanAccessors text = (accessor :: (scanAccessors rest).1, (scanAccessors rest).2) := by
  rw [scanAccessors]
  split
  · next hnone => simp [h] at hnone
  · next found left hsome =>
      obtain ⟨rfl, rfl⟩ := Prod.mk.inj (Option.some.inj (h.symm.trans hsome))
      rfl

theorem length_scanAccessors (text : List Char) :
    (scanAccessors text).2.length ≤ text.length := by
  fun_induction scanAccessors text with
  | case1 => exact Nat.le_refl _
  | case2 text accessor rest h hlt accessors left hrest ih =>
      rw [hrest] at ih
      exact Nat.le_trans ih (Nat.le_of_lt hlt)

def scanRoot : List Char → Option (List Char × List Char)
  | '[' :: '"' :: rest => closeBracket (scanQuoted [] rest)
  | text => scanName text

def scan (text : List Char) : Option (Access × List Char) :=
  (scanRoot text).map fun (root, rest) =>
    let (accessors, rest) := scanAccessors rest
    (⟨String.ofList root, accessors⟩, rest)

theorem length_scan {text rest : List Char} {access : Access}
    (h : scan text = some (access, rest)) : rest.length < text.length := by
  obtain ⟨⟨root, left⟩, hroot, heq⟩ := Option.map_eq_some_iff.mp h
  have hleft : left.length < text.length := by
    unfold scanRoot at hroot
    split at hroot
    · obtain ⟨inner, hquoted, hlt⟩ := length_closeBracket hroot
      exact Nat.lt_succ_of_lt (Nat.lt_succ_of_lt (Nat.lt_trans hlt (length_scanQuoted hquoted)))
    · exact length_scanName hroot
  obtain ⟨-, rfl⟩ := Prod.mk.inj heq
  exact Nat.lt_of_le_of_lt (length_scanAccessors left) hleft

def parse (text : String) : Except Malformed Access :=
  match scan text.toList with
  | some (access, []) => .ok access
  | _ =>
    .error
      { message := s!"`{text}` is not a valid property access"
        span := ⟨0, text.utf8ByteSize⟩ }

end Access

end Provision
