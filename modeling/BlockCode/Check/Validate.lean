/- # Validation

A program may be rendered when no line has a fault. The check goes through the whole outline
and does not stop at the first fault, so that an editor can mark every bad line at once. The
faults of a line come in a fixed order: its identifier, its structure, the constants it
writes, its expressions.
-/

import BlockCode.Check.Constant
import BlockCode.Check.Expression

namespace BlockCode

/-- All faults of a line, where the program defines the given functions. -/
def Line.faults (functions : List FunctionSignature) (line : Line) : List Fault :=
  line.idFaults ++ line.structureFaults functions ++ line.constantFaults
    ++ line.expressionFaults functions

/-- The findings of an outline, line by line. -/
def Outline.findings (items : Outline) : List Finding :=
  items.lines.flatMap fun line => (line.faults items.functions).map line.finding

/-- The findings of a program. -/
def Block.validate (program : Block) : List Finding :=
  program.outline.findings

end BlockCode
