import Provision.Number.Basic

/-!
# Decimal digits

The fewest decimal digits that read back as a given number, and the text made from them. Between
two shortest candidates the nearer one is taken and a tie goes up; no exponent is ever written.
-/

namespace Provision.Number

/-- The numbers that round to a finite number, over a common denominator: lower end, value, upper
end, and whether the ends belong to it. Below a power of two the neighbours are closer. -/
structure Interval where
  lower : Nat
  value : Nat
  upper : Nat
  denominator : Nat
  closed : Bool

def interval (mantissa : Nat) (exponent : Int) : Interval :=
  let below := if mantissa == Nat.pow 2 52 then 1 else 2
  let scale := if 2 ≤ exponent then Nat.pow 2 (exponent - 2).toNat else 1
  { lower := (4 * mantissa - below) * scale
    value := 4 * mantissa * scale
    upper := (4 * mantissa + 2) * scale
    denominator := if 2 ≤ exponent then 1 else Nat.pow 2 (2 - exponent).toNat
    closed := mantissa % 2 == 0 }

def reachesTen (numerator denominator : Nat) (power : Int) : Bool :=
  if 0 ≤ power then denominator * Nat.pow 10 power.toNat ≤ numerator
  else denominator ≤ numerator * Nat.pow 10 (-power).toNat

def floorLog10 (numerator denominator : Nat) : Int :=
  let estimate := floorLog2 numerator denominator * 30103 / 100000
  if reachesTen numerator denominator (estimate + 1) then estimate + 1
  else if reachesTen numerator denominator estimate then estimate
  else estimate - 1

/-- The digits of the grid `10 ^ power` that lie in the interval next to its value. -/
def gridPoint? (range : Interval) (power : Int) : Option Nat :=
  let up := if 0 ≤ power then 1 else Nat.pow 10 (-power).toNat
  let unit := range.denominator * if 0 ≤ power then Nat.pow 10 power.toNat else 1
  let value := range.value * up
  let floor := value / unit
  let inside (point : Nat) : Bool :=
    let scaled := point * unit
    if range.closed then range.lower * up ≤ scaled && scaled ≤ range.upper * up
    else range.lower * up < scaled && scaled < range.upper * up
  let nearerAbove := 2 * (value % unit) ≥ unit
  match inside floor, inside (floor + 1) with
  | true, true => some (if nearerAbove then floor + 1 else floor)
  | true, false => some floor
  | false, true => some (floor + 1)
  | false, false => none

def searchGrid (range : Interval) : Nat → Int → Nat × Int
  | 0, power =>
    let up := if 0 ≤ power then 1 else Nat.pow 10 (-power).toNat
    let unit := range.denominator * if 0 ≤ power then Nat.pow 10 power.toNat else 1
    (range.value * up / unit, power)
  | tries + 1, power =>
    match gridPoint? range power with
    | some digits => (digits, power)
    | none => searchGrid range tries (power - 1)

/-- The fewest digits and the power of ten they are counted in. The first grid tried is one above
the value's leading digit, so that a value just below a power of ten can be that power. -/
def shortest (mantissa : Nat) (exponent : Int) : Nat × Int :=
  let range := interval mantissa exponent
  searchGrid range 18 (floorLog10 range.value range.denominator + 1)

def positional (digits : Nat) (power : Int) : String :=
  let text := Nat.toDigits 10 digits
  if 0 ≤ power then String.ofList (text ++ List.replicate power.toNat '0')
  else
    let places := (-power).toNat
    if places < text.length then
      String.ofList (text.take (text.length - places) ++ '.' :: text.drop (text.length - places))
    else String.ofList ('0' :: '.' :: List.replicate (places - text.length) '0' ++ text)

/-- A number as it is written in a program: integral values below `10 ^ 15` as integers, others
with the fewest digits that read back. -/
def text (number : Number) : String :=
  match number, number.toInt? with
  | .nan, _ => "NaN"
  | .infinite negative, _ => if negative then "-inf" else "inf"
  | .finite negative mantissa exponent, integral =>
    match integral with
    | some value =>
      if value.natAbs < Nat.pow 10 15 then toString value else signed negative mantissa exponent
    | none => signed negative mantissa exponent
where
  signed (negative : Bool) (mantissa : Nat) (exponent : Int) : String :=
    let (digits, power) := shortest mantissa exponent
    (if negative then "-" else "") ++ positional digits power

end Provision.Number
