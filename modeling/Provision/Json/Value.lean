import Provision.Json.Document

/-!
# JSON values

What a document means. A number without point and exponent that fits 64 bits is an integer, every
other number is a double read in two roundings: the leading digits as a 64-bit word, then the
power of ten. A key that is repeated keeps its first place and takes its last value. Containers
may be nested 127 deep.
-/

namespace Provision

inductive Json where
  | null
  | bool (value : Bool)
  | int (value : Int)
  | real (value : Number)
  | string (value : String)
  | array (items : List Json)
  | object (fields : List (String × Json))
  deriving Repr, Inhabited

abbrev Json.Fields := List (String × Json)

namespace Json

def wordMax : Nat := Nat.pow 2 64 - 1

/-- Takes digits into a word as long as they fit; gives the word and the digits left over. -/
def absorb (word : Nat) : List Nat → Nat × List Nat
  | [] => (word, [])
  | digit :: rest =>
    if wordMax < word * 10 + digit then (word, digit :: rest) else absorb (word * 10 + digit) rest

/-- Divides by a power of ten, in steps where the power is beyond every double. -/
def divideTen (number : Number) (power : Nat) : Number :=
  if power ≤ 308 then number.overTen power
  else if number.isZero then number
  else divideTen (number.overTen 308) (power - 308)
termination_by power

/-- `word * 10 ^ exponent`; none beyond the greatest double. -/
def scaleWord? (negative : Bool) (word : Nat) (exponent : Int) : Option Number :=
  let signed (number : Number) := if negative then number.negate else number
  if exponent < 0 then some (signed (divideTen (.ofNat word) (-exponent).toNat))
  else if word == 0 then some (.zero negative)
  else if 308 < exponent then none
  else
    let number := (Number.ofNat word).timesTen exponent.toNat
    if number.isInfinite then none else some (signed number)

def Numeral.toJson? (numeral : Numeral) : Option Json :=
  let (word, left) := absorb 0 numeral.whole
  match numeral.fraction, numeral.exponent, left with
  | none, none, [] =>
    if !numeral.negative then some (.int word)
    else if word == 0 || Nat.pow 2 63 < word then some (.real (Number.ofNat word).negate)
    else some (.int (-word))
  | fraction, exponent, left =>
    let (word, shift) :=
      match fraction with
      | none => (word, (left.length : Int))
      | some digits =>
        let (word, dropped) := absorb word digits
        (word, (left.length : Int) - (digits.length - dropped.length : Nat))
    (scaleWord? numeral.negative word (shift + exponent.getD 0)).map .real

/-- Joins the units of a surrogate pair; a surrogate that stands alone is refused. -/
def decodeGlyphs : List Glyph → Option (List Char)
  | [] => some []
  | .char c :: rest => (decodeGlyphs rest).map (c :: ·)
  | .unit high :: .unit low :: rest =>
    if 0xd800 ≤ high && high < 0xdc00 then
      if 0xdc00 ≤ low && low < 0xe000 then
        (decodeGlyphs rest).map
          (Char.ofNat (0x10000 + (high - 0xd800) * 0x400 + (low - 0xdc00)) :: ·)
      else none
    else if 0xdc00 ≤ high && high < 0xe000 then none
    else (decodeGlyphs (.unit low :: rest)).map (Char.ofNat high :: ·)
  | .unit code :: rest =>
    if 0xd800 ≤ code && code < 0xe000 then none
    else (decodeGlyphs rest).map (Char.ofNat code :: ·)

def glyphsText? (glyphs : List Glyph) : Option String := (decodeGlyphs glyphs).map String.ofList

def get? (fields : List (String × Json)) (key : String) : Option Json := fields.lookup key

def insert (fields : List (String × Json)) (key : String) (value : Json) : List (String × Json) :=
  match fields with
  | [] => [(key, value)]
  | (other, old) :: rest =>
    if other == key then (other, value) :: rest else (other, old) :: insert rest key value

end Json

namespace Json.Document

mutual

def toJson? (room : Nat) : Document → Option Json
  | .null => some .null
  | .bool value => some (.bool value)
  | .number numeral => numeral.toJson?
  | .string glyphs => (glyphsText? glyphs).map .string
  | .array items =>
    match room with
    | 0 => none
    | room + 1 => (items? room items).map .array
  | .object fields =>
    match room with
    | 0 => none
    | room + 1 => (fields? room [] fields).map .object

def items? (room : Nat) : List Document → Option (List Json)
  | [] => some []
  | item :: rest => do
    let item ← toJson? room item
    let rest ← items? room rest
    return item :: rest

def fields? (room : Nat) (read : List (String × Json)) :
    List (List Glyph × Document) → Option (List (String × Json))
  | [] => some read
  | (key, value) :: rest => do
    let key ← glyphsText? key
    let value ← toJson? room value
    fields? room (insert read key value) rest

end

end Json.Document

namespace Json

def depthLimit : Nat := 127

def parse? (text : String) : Option Json :=
  (Document.parse? text).bind (Document.toJson? depthLimit)

end Json

end Provision
