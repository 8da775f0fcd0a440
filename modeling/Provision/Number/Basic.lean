/-!
# Numbers

Double-precision numbers as exact values. A finite number is `± mantissa * 2 ^ exponent`, kept in
the one form that has either a mantissa of 53 bits or the least exponent, so that two finite
numbers are equal exactly when their fields are, the two zeros apart.
-/

namespace Provision

inductive Number where
  | nan
  | infinite (negative : Bool)
  | finite (negative : Bool) (mantissa : Nat) (exponent : Int)
  deriving DecidableEq, Repr, Inhabited

namespace Number

def leastExponent : Int := -1074

def greatestExponent : Int := 971

def zero (negative : Bool) : Number := .finite negative 0 leastExponent

/-- `numerator / denominator` to the nearest natural number, a half to the even one. -/
def roundDiv (numerator denominator : Nat) : Nat :=
  let quotient := numerator / denominator
  let twice := 2 * (numerator % denominator)
  if twice > denominator || (twice == denominator && quotient % 2 == 1) then quotient + 1
  else quotient

def roundScaled (numerator denominator : Nat) (exponent : Int) : Nat :=
  if 0 ≤ exponent then roundDiv numerator (denominator * Nat.pow 2 exponent.toNat)
  else roundDiv (numerator * Nat.pow 2 (-exponent).toNat) denominator

/-- The greatest `n` with `2 ^ n ≤ numerator / denominator`. -/
def floorLog2 (numerator denominator : Nat) : Int :=
  let estimate : Int := (numerator.log2 : Int) - denominator.log2
  let reached :=
    if 0 ≤ estimate then denominator * Nat.pow 2 estimate.toNat ≤ numerator
    else denominator ≤ numerator * Nat.pow 2 (-estimate).toNat
  if reached then estimate else estimate - 1

def ofRatio (negative : Bool) (numerator denominator : Nat) : Number :=
  if numerator == 0 then zero negative else
    let exponent := max (floorLog2 numerator denominator - 52) leastExponent
    let mantissa := roundScaled numerator denominator exponent
    let (mantissa, exponent) :=
      if mantissa == Nat.pow 2 53 then (Nat.pow 2 52, exponent + 1) else (mantissa, exponent)
    if greatestExponent < exponent then .infinite negative
    else .finite negative mantissa exponent

def ofNat (value : Nat) : Number := ofRatio false value 1

def ofInt (value : Int) : Number := ofRatio (value < 0) value.natAbs 1

def decimalReach : Nat := 400

def ofDecimal (negative : Bool) (digits : Nat) (exponent : Int) : Number :=
  let order : Int := (Nat.toDigits 10 digits).length + exponent
  if digits == 0 || order < -(decimalReach : Int) then zero negative
  else if (decimalReach : Int) < order then .infinite negative
  else if 0 ≤ exponent then ofRatio negative (digits * Nat.pow 10 exponent.toNat) 1
  else ofRatio negative digits (Nat.pow 10 (-exponent).toNat)

def ratio (mantissa : Nat) (exponent : Int) : Nat × Nat :=
  if 0 ≤ exponent then (mantissa * Nat.pow 2 exponent.toNat, 1)
  else (mantissa, Nat.pow 2 (-exponent).toNat)

def negate : Number → Number
  | .nan => .nan
  | .infinite negative => .infinite !negative
  | .finite negative mantissa exponent => .finite (!negative) mantissa exponent

def isZero : Number → Bool
  | .finite _ mantissa _ => mantissa == 0
  | _ => false

def isInfinite : Number → Bool
  | .infinite _ => true
  | _ => false

def toInt? : Number → Option Int
  | .finite negative mantissa exponent =>
    let (numerator, denominator) := ratio mantissa exponent
    if numerator % denominator == 0 then
      let magnitude : Int := (numerator / denominator : Nat)
      some (if negative then -magnitude else magnitude)
    else none
  | _ => none

def isIntegral (number : Number) : Bool := number.toInt?.isSome

/-- Numeric equality: a number that is not one differs from itself, and the two zeros agree. -/
def same : Number → Number → Bool
  | .nan, _ => false
  | _, .nan => false
  | a, b => a == b || (a.isZero && b.isZero)

/-- Multiplies the magnitude by `10 ^ power`, itself rounded first. -/
def timesTen (number : Number) (power : Nat) : Number :=
  match number, ofNat (Nat.pow 10 power) with
  | .finite negative mantissa exponent, .finite _ mantissa' exponent' =>
    let (numerator, denominator) := ratio mantissa exponent
    let (numerator', denominator') := ratio mantissa' exponent'
    ofRatio negative (numerator * numerator') (denominator * denominator')
  | number, _ => number

/-- Divides the magnitude by `10 ^ power`, itself rounded first. -/
def overTen (number : Number) (power : Nat) : Number :=
  match number, ofNat (Nat.pow 10 power) with
  | .finite negative mantissa exponent, .finite _ mantissa' exponent' =>
    let (numerator, denominator) := ratio mantissa exponent
    let (numerator', denominator') := ratio mantissa' exponent'
    ofRatio negative (numerator * denominator') (denominator * numerator')
  | number, _ => number

end Number

end Provision
