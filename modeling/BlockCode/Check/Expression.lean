/- # Expressions in slots

The brackets of a statement are checked over all of its slots together; if they are in order,
every expression slot has to read. What is read in a slot that is written to has to be
something that can be written to, and calls of user-defined functions have to fit their
definitions wherever they stand.
-/

import BlockCode.Check.Structure
import BlockCode.Program.Slots

namespace BlockCode

/-- What a slot that is written to may hold: a plain name, or also an element of an array. -/
inductive WriteTarget where
  | name
  | element
  deriving DecidableEq, Repr

/-- What a slot may hold, if it is written to. Parameters count as written to. -/
def StatementKind.writeTarget? (kind : StatementKind) (slot : Nat) : Option WriteTarget :=
  match kind with
  | .assign | .increment | .decrement => if slot == 0 then some .element else none
  | .initializeArray | .bulkAssign | .forIncrement | .forDecrement | .callFunction =>
    if slot == 0 then some .name else none
  | .defineFunction => some .name
  | _ => none

/-- Whether the expression can be written to. A plain name has no dots. -/
def WriteTarget.admits : WriteTarget → Expr → Bool
  | .name, .name _ text => !text.toList.contains '.'
  | .name, _ => false
  | .element, e => e.assignableName?.isSome

namespace Line

/-- The faults of the calls of user-defined functions in an expression. -/
def userCallFaults (functions : List FunctionSignature) (e : Expr) : List Fault :=
  e.parts.flatMap fun
    | .call _ name args true => callFaults functions name args.length
    | _ => []

/-- The faults of one slot. -/
def slotFaults (functions : List FunctionSignature) (line : Line) (slot : Nat) : List Fault :=
  match line.statement.readSlot slot with
  | .error e => [.expression e]
  | .ok exprs =>
    exprs.flatMap fun e =>
      (if (line.kind.writeTarget? slot).all fun target => target.admits e then []
        else [.notAssignable (trim (line.statement.slot slot))])
      ++ userCallFaults functions e

/-- The faults of all slots of a line. A bracket fault hides every other one. -/
def expressionFaults (functions : List FunctionSignature) (line : Line) : List Fault :=
  match bracketErrors (line.statement.slots.map String.toList) with
  | [] => line.statement.expressionSlots.flatMap (line.slotFaults functions)
  | errors => errors.map fun e => .expression (.bracket e)

end Line

end BlockCode
