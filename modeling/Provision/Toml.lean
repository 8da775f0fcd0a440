import Provision.Number.Basic
import Provision.Toml.DateTime

/-!
# TOML

The lines of a TOML document and their values. Every reader takes the text and gives what it read
with the text that follows, or nothing when there is no such thing.
-/

namespace Provision.Toml

inductive Value where
  | string (value : String)
  | integer (value : Int)
  | float (value : Number)
  | boolean (value : Bool)
  | dateTime (value : DateTime)
  | array (items : List Value)
  /-- The keys of an inline table may be dotted. -/
  | table (pairs : List (List String × Value))
  deriving Repr, Inhabited

inductive Line where
  | header (path : List String)
  | arrayHeader (path : List String)
  | pair (path : List String) (value : Value)
  deriving Repr, Inhabited

def isBlank (c : Char) : Bool := c == ' ' || c == '\t'

def skipBlanks (text : List Char) : List Char := text.dropWhile isBlank

def isPlain (c : Char) : Bool :=
  c == '\t' || (0x20 ≤ c.toNat && c.toNat ≤ 0x7e) || 0x80 ≤ c.toNat

def newline? : List Char → Option (List Char)
  | '\n' :: rest => some rest
  | '\r' :: '\n' :: rest => some rest
  | _ => none

def lineEnd? (text : List Char) : Option (List Char) :=
  if text.isEmpty then some [] else newline? text

def trailing? (text : List Char) : Option (List Char) :=
  match skipBlanks text with
  | '#' :: rest => lineEnd? (rest.dropWhile isPlain)
  | rest => lineEnd? rest

def skipSpace (inComment : Bool) : List Char → Option (List Char)
  | [] => if inComment then none else some []
  | '\n' :: rest => skipSpace false rest
  | '\r' :: '\n' :: rest => skipSpace false rest
  | c :: rest =>
    if inComment then if isPlain c then skipSpace true rest else none
    else if isBlank c then skipSpace false rest
    else if c == '#' then skipSpace true rest
    else some (c :: rest)

def hexValue? (c : Char) : Option Nat :=
  if c.isDigit then some (c.toNat - '0'.toNat)
  else if 'a' ≤ c && c ≤ 'f' then some (c.toNat - 'a'.toNat + 10)
  else if 'A' ≤ c && c ≤ 'F' then some (c.toNat - 'A'.toNat + 10)
  else none

def scalar? (digits : List Char) : Option Char := do
  let values ← digits.mapM hexValue?
  let code := values.foldl (16 * · + ·) 0
  if h : code.isValidChar then some (Char.ofNatAux code h) else none

def scanEscape : List Char → Option (Char × List Char)
  | 'b' :: rest => some ('\x08', rest)
  | 't' :: rest => some ('\t', rest)
  | 'n' :: rest => some ('\n', rest)
  | 'f' :: rest => some ('\x0c', rest)
  | 'r' :: rest => some ('\r', rest)
  | '"' :: rest => some ('"', rest)
  | '\\' :: rest => some ('\\', rest)
  | 'u' :: a :: b :: c :: d :: rest => (scalar? [a, b, c, d]).map (·, rest)
  | 'U' :: a :: b :: c :: d :: e :: f :: g :: h :: rest =>
    (scalar? [a, b, c, d, e, f, g, h]).map (·, rest)
  | _ => none

def scanBasic : Nat → List Char → Option (List Char × List Char)
  | 0, _ => none
  | _, [] => none
  | fuel + 1, c :: rest =>
    if c == '"' then some ([], rest)
    else if c == '\\' then do
      let (escaped, rest) ← scanEscape rest
      let (read, rest) ← scanBasic fuel rest
      return (escaped :: read, rest)
    else if isPlain c then do
      let (read, rest) ← scanBasic fuel rest
      return (c :: read, rest)
    else none

def scanLiteral (text : List Char) : Option (List Char × List Char) :=
  match text.dropWhile fun c => isPlain c && c != '\'' with
  | '\'' :: rest => some (text.takeWhile fun c => isPlain c && c != '\'', rest)
  | _ => none

def skipLines : List Char → List Char
  | '\n' :: rest => skipLines rest
  | '\r' :: '\n' :: rest => skipLines rest
  | c :: rest => if isBlank c then skipLines rest else c :: rest
  | [] => []

/-- What comes after a backslash that ends a line: all the space is skipped. -/
def foldedLine? (text : List Char) : Option (List Char) :=
  (newline? (skipBlanks text)).map skipLines

def push (c : Char) : List Char × List Char → List Char × List Char
  | (read, rest) => (c :: read, rest)

/-- A text of several lines between three marks, after the first three. Up to two marks may stand
before the last three. Only between double quotes does a backslash escape. -/
def scanLines (mark : Char) : Nat → List Char → Option (List Char × List Char)
  | 0, _ => none
  | _, [] => none
  | fuel + 1, c :: rest =>
    if c == mark then
      match (rest.takeWhile (· == mark)).length with
      | 0 | 1 => (scanLines mark fuel rest).map (push c)
      | 2 => some ([], rest.drop 2)
      | 3 => some ([mark], rest.drop 3)
      | _ => some ([mark, mark], rest.drop 4)
    else if c == '\\' && mark == '"' then
      match foldedLine? rest with
      | some rest => scanLines mark fuel rest
      | none => do
        let (escaped, rest) ← scanEscape rest
        (scanLines mark fuel rest).map (push escaped)
    else
      match newline? (c :: rest) with
      | some rest => (scanLines mark fuel rest).map (push '\n')
      | none => if isPlain c then (scanLines mark fuel rest).map (push c) else none

def dropFirstBreak (text : List Char) : List Char := (newline? text).getD text

def asString : Option (List Char × List Char) → Option (String × List Char) :=
  Option.map fun (read, rest) => (String.ofList read, rest)

def scanString (text : List Char) : Option (String × List Char) :=
  match text with
  | '"' :: '"' :: '"' :: rest => asString (scanLines '"' text.length (dropFirstBreak rest))
  | '\'' :: '\'' :: '\'' :: rest => asString (scanLines '\'' text.length (dropFirstBreak rest))
  | '"' :: rest => asString (scanBasic text.length rest)
  | '\'' :: rest => asString (scanLiteral rest)
  | _ => none

def isKeyChar (c : Char) : Bool := c.isAlphanum || c == '_' || c == '-'

def scanSimpleKey (text : List Char) : Option (String × List Char) :=
  match text with
  | '"' :: rest => asString (scanBasic text.length rest)
  | '\'' :: rest => asString (scanLiteral rest)
  | _ =>
    match text.takeWhile isKeyChar with
    | [] => none
    | name => some (String.ofList name, text.dropWhile isKeyChar)

/-- How many arrays and tables may stand inside each other, and how many parts a key may have. -/
def nestingLimit : Nat := 79

def scanKey : Nat → List Char → Option (List String × List Char)
  | 0, _ => none
  | parts + 1, text => do
    let (name, rest) ← scanSimpleKey (skipBlanks text)
    match skipBlanks rest with
    | '.' :: rest =>
      let (names, rest) ← scanKey parts rest
      return (name :: names, rest)
    | rest => return ([name], rest)

def digitOf? (base : Nat) (c : Char) : Option Nat := (hexValue? c).filter (· < base)

def scanDigits (base : Nat) : List Char → List Nat × List Char
  | [] => ([], [])
  | c :: rest =>
    match digitOf? base c with
    | some digit =>
      let (digits, rest) := scanDigits base rest
      (digit :: digits, rest)
    | none =>
      match c, rest with
      | '_', next :: after =>
        match digitOf? base next with
        | some digit =>
          let (digits, rest) := scanDigits base after
          (digit :: digits, rest)
        | none => ([], c :: rest)
      | _, _ => ([], c :: rest)

def digitsValue (base : Nat) (digits : List Nat) : Nat := digits.foldl (base * · + ·) 0

def scanBase (base : Nat) (text : List Char) : Option (List Nat × List Char) :=
  match text with
  | c :: _ => if (digitOf? base c).isSome then some (scanDigits base text) else none
  | [] => none

/-- A decimal number; one that starts with zero has no other digit. -/
def scanDecimal : List Char → Option (List Nat × List Char)
  | '0' :: rest => some ([0], rest)
  | text => scanBase 10 text

def scanSign : List Char → Bool × List Char
  | '+' :: rest => (false, rest)
  | '-' :: rest => (true, rest)
  | text => (false, text)

def fitted (negative : Bool) (base : Nat) :
    Option (List Nat × List Char) → Option (Value × List Char)
  | some (digits, rest) =>
    let value := digitsValue base digits
    if value < Nat.pow 2 63 || (negative && value == Nat.pow 2 63) then
      some (.integer (if negative then -(value : Int) else value), rest)
    else none
  | none => none

def scanInteger : List Char → Option (Value × List Char)
  | '0' :: 'x' :: rest => fitted false 16 (scanBase 16 rest)
  | '0' :: 'o' :: rest => fitted false 8 (scanBase 8 rest)
  | '0' :: 'b' :: rest => fitted false 2 (scanBase 2 rest)
  | text =>
    let (negative, rest) := scanSign text
    fitted negative 10 (scanDecimal rest)

def scanFraction : List Char → Option (List Nat × List Char)
  | '.' :: rest => scanBase 10 rest
  | _ => none

def scanExponent : List Char → Option (Int × List Char)
  | 'e' :: rest | 'E' :: rest => do
    let (negative, rest) := scanSign rest
    let (digits, rest) ← scanBase 10 rest
    let value : Int := digitsValue 10 digits
    return (if negative then -value else value, rest)
  | _ => none

/-- Digits with a fraction, an exponent or both. A positive number beyond the greatest double is
refused, a negative one is infinite. -/
def scanReal (negative : Bool) (text : List Char) : Option (Number × List Char) := do
  let (whole, rest) ← scanDecimal text
  let fraction := scanFraction rest
  let (places, rest) := fraction.getD ([], rest)
  let exponent := scanExponent rest
  let (power, rest) := exponent.getD (0, rest)
  if fraction.isNone && exponent.isNone then none
  else
    let number :=
      Number.ofDecimal negative (digitsValue 10 (whole ++ places)) (power - places.length)
    if number = .infinite false then none else some (number, rest)

def scanFloat (text : List Char) : Option (Number × List Char) :=
  match scanSign text with
  | (negative, 'i' :: 'n' :: 'f' :: rest) => some (.infinite negative, rest)
  | (_, 'n' :: 'a' :: 'n' :: rest) => some (.nan, rest)
  | (negative, rest) => scanReal negative rest

/-- No key is set twice, nor is one set inside the value of another. -/
def apart : List (List String) → Bool
  | [] => true
  | path :: rest =>
    rest.all (fun other => !path.isPrefixOf other && !other.isPrefixOf path) && apart rest

def scanBoolean : List Char → Option (Bool × List Char)
  | 't' :: 'r' :: 'u' :: 'e' :: rest => some (true, rest)
  | 'f' :: 'a' :: 'l' :: 's' :: 'e' :: rest => some (false, rest)
  | _ => none

/-- A value that holds no other: the first reading that succeeds, an integer last, since digits
also start every other number and every date. -/
def scanPlain (text : List Char) : Option (Value × List Char) :=
  (scanString text).map (fun (value, rest) => (.string value, rest))
    <|> (scanBoolean text).map (fun (value, rest) => (.boolean value, rest))
    <|> (scanDateTime text).map (fun (value, rest) => (.dateTime value, rest))
    <|> (scanFloat text).map (fun (value, rest) => (.float value, rest))
    <|> scanInteger text

mutual

def scanValue : Nat → Nat → List Char → Option (Value × List Char)
  | 0, _, _ => none
  | fuel + 1, room, text =>
    match text, room with
    | '[' :: _, 0 | '{' :: _, 0 => none
    | '[' :: rest, room + 1 =>
      (scanItems fuel room rest).map fun (items, rest) => (.array items, rest)
    | '{' :: rest, room + 1 =>
      match skipBlanks rest with
      | '}' :: rest => some (.table [], rest)
      | rest => do
        let (pairs, rest) ← scanPairs fuel room rest
        if apart (pairs.map (·.1)) then some (.table pairs, rest) else none
    | _, _ => scanPlain text

def scanItems : Nat → Nat → List Char → Option (List Value × List Char)
  | 0, _, _ => none
  | fuel + 1, room, text => do
    match ← skipSpace false text with
    | ']' :: rest => return ([], rest)
    | rest =>
      let (item, rest) ← scanValue fuel room rest
      match ← skipSpace false rest with
      | ',' :: rest =>
        let (items, rest) ← scanItems fuel room rest
        return (item :: items, rest)
      | ']' :: rest => return ([item], rest)
      | _ => none

def scanPairs : Nat → Nat → List Char → Option (List (List String × Value) × List Char)
  | 0, _, _ => none
  | fuel + 1, room, text => do
    let (path, rest) ← scanKey nestingLimit text
    match rest with
    | '=' :: rest =>
      let (value, rest) ← scanValue fuel room (skipBlanks rest)
      match skipBlanks rest with
      | ',' :: rest =>
        let (pairs, rest) ← scanPairs fuel room rest
        return ((path, value) :: pairs, rest)
      | '}' :: rest => return ([(path, value)], rest)
      | _ => none
    | _ => none

end

def scanLine (text : List Char) : Option (Line × List Char) :=
  match text with
  | '[' :: '[' :: rest => do
    let (path, rest) ← scanKey nestingLimit rest
    match rest with
    | ']' :: ']' :: rest => return (.arrayHeader path, ← trailing? rest)
    | _ => none
  | '[' :: rest => do
    let (path, rest) ← scanKey nestingLimit rest
    match rest with
    | ']' :: rest => return (.header path, ← trailing? rest)
    | _ => none
  | _ => do
    let (path, rest) ← scanKey nestingLimit text
    match rest with
    | '=' :: rest =>
      let (value, rest) ← scanValue (2 * text.length) nestingLimit (skipBlanks rest)
      return (.pair path value, ← trailing? rest)
    | _ => none

def scanLineList : Nat → List Char → Option (List Line)
  | 0, _ => none
  | fuel + 1, text =>
    match skipBlanks text with
    | [] => some []
    | '#' :: rest => (trailing? ('#' :: rest)).bind (scanLineList fuel)
    | rest =>
      match newline? rest with
      | some rest => scanLineList fuel rest
      | none => do
        let (line, rest) ← scanLine rest
        return line :: (← scanLineList fuel rest)

/-- The lines of a document that say something; a byte order mark may come first. -/
def lines? (document : String) : Option (List Line) :=
  let text :=
    match document.toList with
    | '\ufeff' :: rest => rest
    | text => text
  scanLineList (text.length + 1) text

end Provision.Toml
