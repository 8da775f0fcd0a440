import Provision.Text.Class
import Provision.Text.Printable

/-!
# Quoted text

Two ways to write a text between double quotes. `quote` is the form that every target language
reads: quotes and backslashes are escaped, controls become an escape with four hexadecimal digits.
`display` is the form used in messages, where whatever cannot be printed is given by its code point.
-/

namespace Provision.Text

def hexChar (digit : Nat) : Char := (Nat.digitChar digit)

def hexQuad (code : Nat) : List Char :=
  [hexChar (code / 4096 % 16), hexChar (code / 256 % 16), hexChar (code / 16 % 16),
    hexChar (code % 16)]

def escapeControl (c : Char) : List Char := '\\' :: 'u' :: hexQuad c.toNat

def escapeChar (c : Char) : List Char :=
  match c with
  | '"' => ['\\', '"']
  | '\\' => ['\\', '\\']
  | '\n' => ['\\', 'n']
  | '\r' => ['\\', 'r']
  | '\t' => ['\\', 't']
  | c => if isControl c then escapeControl c else [c]

def escape (text : List Char) : List Char := text.flatMap escapeChar

def double (mark : Char) (text : List Char) : List Char :=
  text.flatMap fun c => if c == mark then [c, c] else [c]

def quoteChars (text : List Char) : List Char := '"' :: escape text ++ ['"']

def quote (text : String) : String := String.ofList (quoteChars text.toList)

def displayChar (c : Char) : List Char :=
  match c with
  | '"' => ['\\', '"']
  | '\\' => ['\\', '\\']
  | '\n' => ['\\', 'n']
  | '\r' => ['\\', 'r']
  | '\t' => ['\\', 't']
  | '\x00' => ['\\', '0']
  | c =>
    if isPrintable c then [c]
    else '\\' :: 'u' :: '{' :: Nat.toDigits 16 c.toNat ++ ['}']

def display (text : String) : String :=
  String.ofList ('"' :: text.toList.flatMap displayChar ++ ['"'])

end Provision.Text
