/- # Steps of counting loops

Two questions about the printed step of a loop that more than one target asks: whether it is
one, and what it is with the other sign.
-/

import BlockCode.Number.Written
import BlockCode.Target.Printed

namespace BlockCode

namespace Printed

/-- Whether the text is the number one. -/
def isOne (step : Printed) : Bool :=
  step.text == "1"

/-- The step with the other sign. An integer is computed with, anything else gets a minus sign
in front. -/
def negated (step : Printed) : Except Overflow String :=
  match readInt64? step.text with
  | some value => (negInt64 value).map toString
  | none => .ok ("-" ++ step.tighterThan .unary)

end Printed

end BlockCode
