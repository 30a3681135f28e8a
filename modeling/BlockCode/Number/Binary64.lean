/- # Binary floating point, exactly

The 64-bit binary format of IEEE 754, as values rather than as words. A finite value is a
sign, a significand below two to the fifty-third and an exponent, and stands for
`significand * 2 ^ exponent`. Every operation computes the exact rational result in natural
number arithmetic and rounds once, to the nearest value and to the even one on a tie. No
machine float takes part, so each result is a matter of arithmetic.
-/

import BlockCode.Number.Overflow

namespace BlockCode

/-- A value of the 64-bit binary format. -/
inductive Binary64 where
  | nan
  | infinite (negative : Bool)
  | finite (negative : Bool) (significand : Nat) (exponent : Int)
  deriving DecidableEq, Repr, Inhabited

namespace Binary64

/-- The exponent of the smallest values. -/
def leastExponent : Int := -1074

/-- The exponent of the largest finite values. -/
def greatestExponent : Int := 971

/-- Zero of either sign. -/
def zero (negative : Bool) : Binary64 :=
  .finite negative 0 leastExponent

/-- One half. -/
def half : Binary64 :=
  .finite false (1 <<< 52) (-53)

/-- A non-negative fraction given by its numerator and denominator. -/
structure Fraction where
  num : Nat
  den : Nat
  deriving Repr

/-- The fraction `n * 2 ^ e`. -/
def Fraction.scaled (n : Nat) (e : Int) : Fraction :=
  if 0 ≤ e then ⟨n <<< e.toNat, 1⟩ else ⟨n, 1 <<< (-e).toNat⟩

/-- The quotient rounded to the nearest natural number, to the even one on a tie. -/
def roundQuotient (num den : Nat) : Nat :=
  let quotient := num / den
  let twice := 2 * (num % den)
  if twice > den || (twice == den && quotient % 2 == 1) then quotient + 1 else quotient

/-- The exponent at which a positive fraction has a significand of 53 bits, but at least the
least exponent. The first guess comes from the bit lengths and is at most one too high. -/
def exponentFor (value : Fraction) : Int :=
  let guess : Int := (value.num.log2 : Int) - (value.den.log2 : Int) - 52
  let unit := Fraction.scaled 1 guess
  let exponent :=
    if value.num * unit.den < (unit.num * value.den) <<< 52 then guess - 1 else guess
  max exponent leastExponent

/-- The value nearest to the signed fraction. -/
def round (negative : Bool) (value : Fraction) : Binary64 :=
  if value.num == 0 then zero negative
  else
    let exponent := exponentFor value
    let unit := Fraction.scaled 1 exponent
    let significand := roundQuotient (value.num * unit.den) (value.den * unit.num)
    let (significand, exponent) :=
      if significand == 1 <<< 53 then (1 <<< 52, exponent + 1) else (significand, exponent)
    if exponent > greatestExponent then .infinite negative
    else .finite negative significand exponent

/-- The value nearest to the decimal `coefficient * 10 ^ exponent`. Exponents far outside the
range of the format are decided by the number of digits alone. -/
def ofDecimal (negative : Bool) (coefficient : Nat) (exponent : Int) : Binary64 :=
  if coefficient == 0 then zero negative
  else
    let digits : Int := (Nat.toDigits 10 coefficient).length
    if exponent + digits > 310 then .infinite negative
    else if exponent + digits < -330 then zero negative
    else if 0 ≤ exponent then round negative ⟨coefficient * Nat.pow 10 exponent.toNat, 1⟩
    else round negative ⟨coefficient, Nat.pow 10 (-exponent).toNat⟩

/-- The value with the other sign. -/
def neg : Binary64 → Binary64
  | .nan => .nan
  | .infinite negative => .infinite (!negative)
  | .finite negative significand exponent => .finite (!negative) significand exponent

/-- A signed fraction as a numerator over a positive denominator. -/
def signedFraction (negative : Bool) (significand : Nat) (exponent : Int) : Int × Nat :=
  let value := Fraction.scaled significand exponent
  (if negative then -(value.num : Int) else value.num, value.den)

/-- Strict order. The two zeros are equal and nothing compares with `nan`. -/
def lt : Binary64 → Binary64 → Bool
  | .nan, _ | _, .nan => false
  | .infinite a, .infinite b => a && !b
  | .infinite a, .finite .. => a
  | .finite .., .infinite b => !b
  | .finite a m e, .finite b n f =>
    let (x, p) := signedFraction a m e
    let (y, q) := signedFraction b n f
    x * q < y * p

/-- The sum of two values. Opposite infinities have none. -/
def add : Binary64 → Binary64 → Binary64
  | .nan, _ | _, .nan => .nan
  | .infinite a, .infinite b => if a == b then .infinite a else .nan
  | .infinite a, .finite .. => .infinite a
  | .finite .., .infinite b => .infinite b
  | .finite a m e, .finite b n f =>
    let (x, p) := signedFraction a m e
    let (y, q) := signedFraction b n f
    let sum := x * q + y * p
    if sum == 0 then zero (a && b) else round (sum < 0) ⟨sum.natAbs, p * q⟩

/-- The quotient of two values. Zero by zero and infinity by infinity have none. -/
def div : Binary64 → Binary64 → Binary64
  | .nan, _ | _, .nan => .nan
  | .infinite _, .infinite _ => .nan
  | .infinite a, .finite b _ _ => .infinite (a != b)
  | .finite a _ _, .infinite b => zero (a != b)
  | .finite a m e, .finite b n f =>
    if n == 0 then if m == 0 then .nan else .infinite (a != b)
    else
      let x := Fraction.scaled m e
      let y := Fraction.scaled n f
      round (a != b) ⟨x.num * y.den, x.den * y.num⟩

/-- Whether the value is greater than zero. -/
def isPositive (value : Binary64) : Bool :=
  lt (zero false) value

/-- The largest integer that is no larger than the value, held to the signed 64-bit range.
`nan` counts as zero. -/
def floorInt64 : Binary64 → Int
  | .nan => 0
  | .infinite negative => if negative then minInt64 else maxInt64
  | .finite negative significand exponent =>
    let (num, den) := signedFraction negative significand exponent
    max minInt64 (min maxInt64 (Int.fdiv num den))

end Binary64

end BlockCode
