/- # Overflow

A few computations are held to the signed 64-bit range: the depth that a drag asks for, the
end of a counting loop moved by one, and the sign of a step. A result outside the range stops
the computation; it is no error of the program being edited or rendered.
-/

namespace BlockCode

/-- The operation whose result left the range. -/
inductive Overflow where
  | add
  | negate
  deriving DecidableEq, Repr

/-- The wording of the failure. -/
def Overflow.message : Overflow → String
  | .add => "attempt to add with overflow"
  | .negate => "attempt to negate with overflow"

/-- The largest signed 64-bit integer. -/
def maxInt64 : Int := 9223372036854775807

/-- The smallest signed 64-bit integer. -/
def minInt64 : Int := -9223372036854775808

/-- Whether the integer lies in the range. -/
def isInt64 (n : Int) : Bool :=
  minInt64 ≤ n && n ≤ maxInt64

/-- The sum, if it lies in the range. -/
def addInt64 (a b : Int) : Except Overflow Int :=
  if isInt64 (a + b) then .ok (a + b) else .error .add

/-- The negative, if it lies in the range. -/
def negInt64 (a : Int) : Except Overflow Int :=
  if isInt64 (-a) then .ok (-a) else .error .negate

end BlockCode
