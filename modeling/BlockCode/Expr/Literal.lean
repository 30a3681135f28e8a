/- # Literal values

Some expressions are constants in disguise: a number literal, possibly in parentheses or
behind minus signs. Two readings of such a literal are of use. As a binary float it decides
the order of the bounds of a random range; as a signed 64-bit integer it can be computed
with exactly. A literal that has only the first reading counts as fractional: it has digits
behind a point, or it is too large for the second.
-/

import BlockCode.Expr.Basic
import BlockCode.Number.Binary64
import BlockCode.Number.Overflow
import BlockCode.Text.Basic

namespace BlockCode

/-- The float nearest to an unsigned decimal numeral. -/
def numeralFloat (text : String) : Binary64 :=
  match piecesAt '.' text.toList with
  | [whole, fraction] =>
    Binary64.ofDecimal false (digitsValue (whole ++ fraction)) (-(fraction.length : Int))
  | _ => Binary64.ofDecimal false (digitsValue text.toList) 0

/-- The value of an unsigned numeral without a fraction, if it fits a signed 64-bit integer. -/
def numeralInteger? (text : String) : Option Int :=
  let digits := text.toList
  if digits.isEmpty || !digits.all isAsciiDigit then none
  else
    let value : Int := digitsValue digits
    if value ≤ maxInt64 then some value else none

namespace Expr

/-- The value of a literal as a float, through parentheses and minus signs. -/
def literalNumber? : Expr → Option Binary64
  | .number _ text => some (numeralFloat text)
  | .group _ inner => inner.literalNumber?
  | .unary _ .negate operand => operand.literalNumber?.map Binary64.neg
  | _ => none

/-- The value of a literal as an integer, through parentheses and minus signs. -/
def literalInteger? : Expr → Option Int
  | .number _ text => numeralInteger? text
  | .group _ inner => inner.literalInteger?
  | .unary _ .negate operand => operand.literalInteger?.map Int.neg
  | _ => none

/-- Whether the expression is a literal that has no integer value. -/
def isFractionalLiteral (e : Expr) : Bool :=
  e.literalNumber?.isSome && e.literalInteger?.isNone

end Expr

end BlockCode
