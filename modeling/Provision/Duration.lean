import Provision.Access

/-!
# Durations

A duration such as `1h30m`: one or more counts, each with its unit. The sum in seconds stays
within 64 bits.
-/

namespace Provision.Duration

def limit : Nat := Nat.pow 2 64 - 1

def unitSeconds? : Char → Option Nat
  | 'h' => some 3600
  | 'm' => some 60
  | 's' => some 1
  | _ => none

def scanTerm (text : List Char) : Option (Nat × List Char) :=
  let digits := text.takeWhile Char.isDigit
  let count := Access.digitsValue digits
  match text.dropWhile Char.isDigit with
  | [] => none
  | c :: rest =>
    if digits.isEmpty || limit < count then none
    else (unitSeconds? c).map fun unit => (min (count * unit) limit, rest)

def sumTerms (total : Nat) (text : List Char) : Option Nat :=
  match scanTerm text with
  | none => none
  | some (seconds, rest) =>
    let total := min (total + seconds) limit
    if rest.isEmpty then some total
    else if rest.length < text.length then sumTerms total rest
    else none
termination_by text.length

def seconds? (text : String) : Option Nat := sumTerms 0 text.toList

end Provision.Duration
