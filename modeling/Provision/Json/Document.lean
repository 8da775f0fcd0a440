import Provision.Number.Basic

/-!
# JSON documents

The syntax of a document, before any value is looked at. A reader may skip what it does not need,
so digits, escapes and repeated keys are kept as written and checked only when a value is taken
from them (`Document.toJson?`). Reading goes in two steps: characters to tokens, tokens to a tree.
-/

namespace Provision.Json

structure Numeral where
  negative : Bool
  whole : List Nat
  fraction : Option (List Nat)
  exponent : Option Int
  deriving DecidableEq, Repr

/-- One character of a string as written: itself, or a UTF-16 unit given by an escape. -/
inductive Glyph where
  | char (c : Char)
  | unit (code : Nat)
  deriving DecidableEq, Repr

inductive Document where
  | null
  | bool (value : Bool)
  | number (numeral : Numeral)
  | string (glyphs : List Glyph)
  | array (items : List Document)
  | object (fields : List (List Glyph × Document))
  deriving Repr, Inhabited

inductive Token where
  | openArray
  | closeArray
  | openObject
  | closeObject
  | comma
  | colon
  | null
  | bool (value : Bool)
  | number (numeral : Numeral)
  | string (glyphs : List Glyph)
  deriving Repr

def isSpace (c : Char) : Bool := c == ' ' || c == '\n' || c == '\t' || c == '\r'

def hexDigit? (c : Char) : Option Nat :=
  if c.isDigit then some (c.toNat - '0'.toNat)
  else if 'a' ≤ c ∧ c ≤ 'f' then some (c.toNat - 'a'.toNat + 10)
  else if 'A' ≤ c ∧ c ≤ 'F' then some (c.toNat - 'A'.toNat + 10)
  else none

def hexCode? (a b c d : Char) : Option Nat := do
  let a ← hexDigit? a
  let b ← hexDigit? b
  let c ← hexDigit? c
  let d ← hexDigit? d
  return ((a * 16 + b) * 16 + c) * 16 + d

def simpleEscape? : Char → Option Char
  | '"' => some '"'
  | '\\' => some '\\'
  | '/' => some '/'
  | 'b' => some '\x08'
  | 'f' => some '\x0c'
  | 'n' => some '\n'
  | 'r' => some '\r'
  | 't' => some '\t'
  | _ => none

/-- Reads a string up to its closing quote. `read` holds the glyphs so far, last first. -/
def scanString (read : List Glyph) : List Char → Option (List Glyph × List Char)
  | '"' :: rest => some (read.reverse, rest)
  | '\\' :: 'u' :: a :: b :: c :: d :: rest =>
    match hexCode? a b c d with
    | some code => scanString (.unit code :: read) rest
    | none => none
  | '\\' :: c :: rest =>
    match simpleEscape? c with
    | some c => scanString (.char c :: read) rest
    | none => none
  | c :: rest => if c.toNat < 0x20 || c == '\\' then none else scanString (.char c :: read) rest
  | [] => none

def scanDigits (text : List Char) : List Nat × List Char :=
  ((text.takeWhile Char.isDigit).map fun c => c.toNat - '0'.toNat, text.dropWhile Char.isDigit)

def digitsValue (digits : List Nat) : Nat := digits.foldl (fun value digit => value * 10 + digit) 0

def scanExponent (text : List Char) : Option (Int × List Char) :=
  let (negative, text) :=
    match text with
    | '+' :: rest => (false, rest)
    | '-' :: rest => (true, rest)
    | rest => (false, rest)
  match scanDigits text with
  | ([], _) => none
  | (digits, rest) =>
    let value : Int := digitsValue digits
    some (if negative then -value else value, rest)

def scanTail (negative : Bool) (whole : List Nat) (text : List Char) :
    Option (Numeral × List Char) := do
  let (fraction, text) ←
    match text with
    | '.' :: rest =>
      match scanDigits rest with
      | ([], _) => none
      | (digits, rest) => some (some digits, rest)
    | rest => some (none, rest)
  match text with
  | 'e' :: rest =>
    let (exponent, rest) ← scanExponent rest
    return (⟨negative, whole, fraction, some exponent⟩, rest)
  | 'E' :: rest =>
    let (exponent, rest) ← scanExponent rest
    return (⟨negative, whole, fraction, some exponent⟩, rest)
  | rest => return (⟨negative, whole, fraction, none⟩, rest)

/-- Reads a number after its sign; a leading zero stands alone. -/
def scanNumber (negative : Bool) (text : List Char) : Option (Numeral × List Char) :=
  match scanDigits text with
  | ([], _) => none
  | (0 :: _ :: _, _) => none
  | (digits, rest) => scanTail negative digits rest

def scanToken (c : Char) (rest : List Char) : Option (Token × List Char) :=
  match c, rest with
  | '[', rest => some (.openArray, rest)
  | ']', rest => some (.closeArray, rest)
  | '{', rest => some (.openObject, rest)
  | '}', rest => some (.closeObject, rest)
  | ',', rest => some (.comma, rest)
  | ':', rest => some (.colon, rest)
  | 'n', 'u' :: 'l' :: 'l' :: rest => some (.null, rest)
  | 't', 'r' :: 'u' :: 'e' :: rest => some (.bool true, rest)
  | 'f', 'a' :: 'l' :: 's' :: 'e' :: rest => some (.bool false, rest)
  | '"', rest => (scanString [] rest).map fun (glyphs, rest) => (.string glyphs, rest)
  | '-', rest => (scanNumber true rest).map fun (numeral, rest) => (.number numeral, rest)
  | c, rest =>
    if c.isDigit then
      (scanNumber false (c :: rest)).map fun (numeral, rest) => (.number numeral, rest)
    else none

def scan (read : List Token) (text : List Char) : Option (List Token) :=
  match text with
  | [] => some read.reverse
  | c :: rest =>
    if isSpace c then scan read rest
    else
      match scanToken c rest with
      | some (token, left) => if left.length ≤ rest.length then scan (token :: read) left else none
      | none => none
termination_by text.length

/-- A container under way: its members so far, last first, and for an object the key that waits
for its value. -/
inductive Frame where
  | array (items : List Document)
  | object (fields : List (List Glyph × Document)) (key : List Glyph)

inductive Reader where
  /-- A value; the end of the array as well when it was just opened. -/
  | value (opened : Bool) (frames : List Frame)
  /-- A key of the object with these fields; its end as well when it was just opened. -/
  | key (opened : Bool) (fields : List (List Glyph × Document)) (frames : List Frame)
  | colon (fields : List (List Glyph × Document)) (key : List Glyph) (frames : List Frame)
  /-- A comma or the end of the innermost container. -/
  | next (frame : Frame) (frames : List Frame)
  | done (document : Document)

namespace Reader

def complete (document : Document) : List Frame → Reader
  | [] => .done document
  | .array items :: frames => .next (.array (document :: items)) frames
  | .object fields name :: frames => .next (.object ((name, document) :: fields) name) frames

def step : Reader → Token → Option Reader
  | .value _ frames, .null => some (complete .null frames)
  | .value _ frames, .bool truth => some (complete (.bool truth) frames)
  | .value _ frames, .number numeral => some (complete (.number numeral) frames)
  | .value _ frames, .string glyphs => some (complete (.string glyphs) frames)
  | .value _ frames, .openArray => some (.value true (.array [] :: frames))
  | .value _ frames, .openObject => some (.key true [] frames)
  | .value true (.array [] :: frames), .closeArray => some (complete (.array []) frames)
  | .key _ fields frames, .string name => some (.colon fields name frames)
  | .key true _ frames, .closeObject => some (complete (.object []) frames)
  | .colon fields name frames, .colon => some (.value false (.object fields name :: frames))
  | .next (.array items) frames, .comma => some (.value false (.array items :: frames))
  | .next (.array items) frames, .closeArray => some (complete (.array items.reverse) frames)
  | .next (.object fields _) frames, .comma => some (.key false fields frames)
  | .next (.object fields _) frames, .closeObject => some (complete (.object fields.reverse) frames)
  | _, _ => none

end Reader

def Document.parse? (text : String) : Option Document :=
  match (scan [] text.toList).bind fun tokens => tokens.foldlM Reader.step (.value false []) with
  | some (.done document) => some document
  | _ => none

end Provision.Json
