/-!
# Dates and times

The dates and times that a TOML document may hold: a date, a time of day, or both, the last with an
offset from universal time or without. Every reader takes the text and gives what it read with the
text that follows, or nothing when there is no such thing.
-/

namespace Provision.Toml

structure Date where
  year : Nat
  month : Nat
  day : Nat
  deriving DecidableEq, Repr, Inhabited

structure Time where
  hour : Nat
  minute : Nat
  second : Nat
  nanosecond : Nat
  deriving DecidableEq, Repr, Inhabited

inductive DateTime where
  | date (date : Date)
  | time (time : Time)
  | both (date : Date) (time : Time) (offset : Option Int)
  deriving DecidableEq, Repr, Inhabited

def isLeapYear (year : Nat) : Bool := year % 4 == 0 && (year % 100 != 0 || year % 400 == 0)

def daysInMonth (year month : Nat) : Nat :=
  match month with
  | 2 => if isLeapYear year then 29 else 28
  | 4 | 6 | 9 | 11 => 30
  | _ => 31

def decimalValue (digits : List Char) : Nat :=
  digits.foldl (fun value c => 10 * value + (c.toNat - '0'.toNat)) 0

def scanField (width least greatest : Nat) (text : List Char) : Option (Nat × List Char) :=
  let digits := text.take width
  let value := decimalValue digits
  if digits.length = width ∧ digits.all Char.isDigit ∧ least ≤ value ∧ value ≤ greatest then
    some (value, text.drop width)
  else none

def afterMark? (mark : Char) : List Char → Option (List Char)
  | [] => none
  | c :: rest => if c = mark then some rest else none

def scanDate (text : List Char) : Option (Date × List Char) := do
  let (year, rest) ← scanField 4 0 9999 text
  let (month, rest) ← scanField 2 1 12 (← afterMark? '-' rest)
  let (day, rest) ← scanField 2 1 (daysInMonth year month) (← afterMark? '-' rest)
  return (⟨year, month, day⟩, rest)

/-- The fraction of a second in billionths; further digits are dropped. -/
def scanNanosecond (text : List Char) : Nat × List Char :=
  match text with
  | '.' :: rest =>
    match rest.takeWhile Char.isDigit with
    | [] => (0, text)
    | digits =>
      let kept := digits.take 9
      (decimalValue kept * Nat.pow 10 (9 - kept.length), rest.dropWhile Char.isDigit)
  | _ => (0, text)

/-- A time of day; a minute may have a leap second. -/
def scanTime (text : List Char) : Option (Time × List Char) := do
  let (hour, rest) ← scanField 2 0 23 text
  let (minute, rest) ← scanField 2 0 59 (← afterMark? ':' rest)
  let (second, rest) ← scanField 2 0 60 (← afterMark? ':' rest)
  let (nanosecond, rest) := scanNanosecond rest
  return (⟨hour, minute, second, nanosecond⟩, rest)

def scanMinutes (text : List Char) : Option (Nat × List Char) := do
  let (hour, rest) ← scanField 2 0 23 text
  let (minute, rest) ← scanField 2 0 59 (← afterMark? ':' rest)
  return (60 * hour + minute, rest)

def scanOffset : List Char → Option (Int × List Char)
  | 'Z' :: rest | 'z' :: rest => some (0, rest)
  | '+' :: rest => (scanMinutes rest).map fun (minutes, rest) => (minutes, rest)
  | '-' :: rest => (scanMinutes rest).map fun (minutes, rest) => (-minutes, rest)
  | _ => none

def scanTimePart : List Char → Option (Time × List Char)
  | 'T' :: rest | 't' :: rest | ' ' :: rest => scanTime rest
  | _ => none

def scanDateTime (text : List Char) : Option (DateTime × List Char) :=
  match scanDate text with
  | none => (scanTime text).map fun (time, rest) => (.time time, rest)
  | some (date, afterDate) =>
    match scanTimePart afterDate with
    | none => some (.date date, afterDate)
    | some (time, afterTime) =>
      match scanOffset afterTime with
      | none => some (.both date time none, afterTime)
      | some (offset, rest) => some (.both date time (some offset), rest)

end Provision.Toml
