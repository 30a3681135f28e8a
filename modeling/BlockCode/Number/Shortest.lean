/- # The shortest decimal of a binary value

A finite value is written with the fewest significant digits that read back as the same
value, and among those with the ones nearest to it. The search goes through the decimal
grids from one digit to seventeen: on each grid only the two neighbours of the value can be
nearest, so a grid has a candidate exactly when one of the two lies in the interval that
rounds to the value. The digits are then laid out around the decimal point, never with an
exponent and without a point when there is no fraction.
-/

import BlockCode.Number.Binary64

namespace BlockCode

namespace Binary64

/-- Decimal digits as a number and the power of ten of their last place. -/
structure Digits where
  coefficient : Nat
  exponent : Int
  deriving DecidableEq, Repr

/-- The fraction of a decimal. -/
def Digits.fraction (d : Digits) : Fraction :=
  if 0 ≤ d.exponent then ⟨d.coefficient * Nat.pow 10 d.exponent.toNat, 1⟩
  else ⟨d.coefficient, Nat.pow 10 (-d.exponent).toNat⟩

/-- The decimal exponent of the leading digit of a positive fraction, found by counting the
digits of the quotient or of the inverse quotient. -/
def leadingExponent (value : Fraction) : Int :=
  if value.den ≤ value.num then
    (Nat.toDigits 10 (value.num / value.den)).length - 1
  else
    let inverse := (Nat.toDigits 10 (value.den / value.num)).length
    if value.num * Nat.pow 10 (inverse - 1) ≥ value.den then -((inverse : Int) - 1)
    else -(inverse : Int)

/-- The candidate on the grid with the given number of digits, if there is one: the nearer of
the two grid neighbours that read back, the upper one when they are equally near. -/
def candidate? (negative : Bool) (significand : Nat) (exponent : Int) (leading : Int)
    (digits : Nat) : Option Digits :=
  let value := Fraction.scaled significand exponent
  let place : Int := leading - (digits : Int) + 1
  let unit := (Digits.mk 1 place).fraction
  let num := value.num * unit.den
  let den := value.den * unit.num
  let low := num / den
  let readsBack (n : Nat) : Bool :=
    round negative (Digits.mk n place).fraction == .finite negative significand exponent
  match readsBack low, readsBack (low + 1) with
  | true, true => if 2 * (num % den) < den then some ⟨low, place⟩ else some ⟨low + 1, place⟩
  | true, false => some ⟨low, place⟩
  | false, true => some ⟨low + 1, place⟩
  | false, false => none

/-- The first grid with a candidate decides. Seventeen digits always have one. -/
def shortest (negative : Bool) (significand : Nat) (exponent : Int) : Digits :=
  let leading := leadingExponent (Fraction.scaled significand exponent)
  ((List.range 17).findSome? fun k =>
    candidate? negative significand exponent leading (k + 1)).getD ⟨significand, exponent⟩

/-- Digits laid out around the decimal point. Zeros at the end of the coefficient that stand
behind the point are dropped. -/
def Digits.layout (d : Digits) : List Char :=
  if 0 ≤ d.exponent then
    Nat.toDigits 10 d.coefficient ++ List.replicate d.exponent.toNat '0'
  else
    let places := (-d.exponent).toNat
    let digits := Nat.toDigits 10 d.coefficient
    let padded := List.replicate (places + 1 - digits.length) '0' ++ digits
    let whole := padded.take (padded.length - places)
    let fraction := ((padded.drop (padded.length - places)).reverse.dropWhile (· == '0')).reverse
    if fraction.isEmpty then whole else whole ++ '.' :: fraction

/-- The written form of a value. -/
def toText : Binary64 → String
  | .nan => "NaN"
  | .infinite negative => if negative then "-inf" else "inf"
  | .finite negative significand exponent =>
    let magnitude :=
      if significand == 0 then ['0'] else (shortest negative significand exponent).layout
    String.ofList (if negative then '-' :: magnitude else magnitude)

end Binary64

end BlockCode
