/- # Slots as expressions

The expressions in the slots of a statement, read where they stand. A list slot gives its
items and any other slot a single expression.
-/

import BlockCode.Fragment.Prepare
import BlockCode.Program.Outline

namespace BlockCode

namespace Statement

/-- The slots of the statement that hold expressions. -/
def expressionSlots (s : Statement) : List Nat :=
  s.kind.expressionSlots s.slots.length

/-- The expressions in a slot. -/
def readSlot (s : Statement) (slot : Nat) : Except ExprError (List Expr) :=
  if s.kind.isListSlot slot then prepareList (s.slot slot)
  else (prepare (s.slot slot)).map fun e => [e]

/-- The expressions in all slots that read. A slot that does not read has none. -/
def readableExprs (s : Statement) : List Expr :=
  s.expressionSlots.flatMap fun slot => (s.readSlot slot).toOption.getD []

end Statement

end BlockCode
