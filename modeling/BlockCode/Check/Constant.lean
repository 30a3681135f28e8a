/- # Constants

A name that an assignment declares constant must not be written again by any later line of the
outline: not by another declaration, nor by any kind of assignment, nor as the variable of a
counting loop.
-/

import BlockCode.Check.Line
import BlockCode.Text.Blank

namespace BlockCode

/-- The variable that the statement writes to, without the position of an array element. It is
taken from the text of the slot, so that lines that do not read are covered as well. -/
def Statement.writtenName? (s : Statement) : Option String :=
  if s.kind.isAssignment || s.kind.isCountingLoop then
    let name := trimChars ((s.slot 0).toList.takeWhile (· != '['))
    if name.isEmpty then none else some (String.ofList name)
  else none

/-- The name that the statement declares constant. -/
def Statement.declaredConstant? (s : Statement) : Option String :=
  if s.kind = .assign && s.isConstant then s.writtenName? else none

/-- A constant of an earlier line must not be written. -/
def Line.constantFaults (line : Line) : List Fault :=
  match line.statement.writtenName? with
  | none => []
  | some name =>
    if line.before.any fun earlier => earlier.statement.declaredConstant? == some name then
      [.constantReassigned name]
    else []

end BlockCode
