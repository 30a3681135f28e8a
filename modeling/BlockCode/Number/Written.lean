/- # Written integers

Integers as a person writes them into a field: decimal digits, with a sign in front if they
like. A text that is no such integer, or that is out of range, is not read.
-/

import BlockCode.Number.Overflow
import BlockCode.Text.Basic

namespace BlockCode

/-- The value of a non-empty run of digits. -/
def readDigits? (digits : List Char) : Option Nat :=
  if digits.isEmpty || !digits.all isAsciiDigit then none else some (digitsValue digits)

/-- An unsigned 64-bit integer. A plus sign may stand in front. -/
def readCount? (text : String) : Option Nat :=
  let value? :=
    match text.toList with
    | '+' :: digits => readDigits? digits
    | digits => readDigits? digits
  value?.filter (· < UInt64.size)

/-- A signed 64-bit integer. A plus or a minus sign may stand in front. -/
def readInt64? (text : String) : Option Int :=
  let value? : Option Int :=
    match text.toList with
    | '+' :: digits => (readDigits? digits).map Int.ofNat
    | '-' :: digits => (readDigits? digits).map fun n => -(Int.ofNat n)
    | digits => (readDigits? digits).map Int.ofNat
  value?.filter isInt64

end BlockCode
