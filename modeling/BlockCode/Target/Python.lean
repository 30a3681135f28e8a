/- # Statements in Python

Indentation alone shows where a block ends, so most closing lines become nothing. There is no
loop with its test at the end: it becomes an endless loop that tests the opposite as its last
step. The language of statements cannot skip that step, so nothing is lost.

A range counts in integers only. A loop over fractions becomes a loop with a condition that
advances its variable at the end of the body.
-/

import BlockCode.Target.Action
import BlockCode.Target.CodeLine
import BlockCode.Target.ExprPrinter
import BlockCode.Target.Step

namespace BlockCode

namespace Python

variable (p : ExprPrinter)

/-- The end of a range. It is not part of the range, so it lies one behind the last value; for
an integer literal it is computed. -/
def rangeStop (direction : Direction) (last : Expr) : Except Overflow String :=
  match last.literalInteger? with
  | some value =>
    (addInt64 value (match direction with | .up => 1 | .down => -1)).map toString
  | none =>
    let sign := match direction with | .up => "+" | .down => "-"
    .ok ((p.print last).atLeast .additive ++ " " ++ sign ++ " 1")

/-- The header of a loop over integers. -/
def rangeHeader (direction : Direction) (counter first last step : Expr) :
    Except Overflow String := do
  let bounds := p.text first ++ ", " ++ (← rangeStop p direction last)
  let range ← match direction with
    | .up =>
      if (p.print step).isOne then pure bounds else pure (bounds ++ ", " ++ p.text step)
    | .down => pure (bounds ++ ", " ++ (← (p.print step).negated))
  return "for " ++ p.text counter ++ " in range(" ++ range ++ "):"

/-- The header of a loop over fractions. -/
def fractionHeader (direction : Direction) (counter first last : Expr) : List CodeLine :=
  let compare := match direction with | .up => "<=" | .down => ">="
  [{ text := p.text counter ++ " = " ++ p.text first },
    { text := "while " ++ p.text counter ++ " " ++ compare ++ " "
        ++ (p.print last).tighterThan .comparison ++ ":" }]

/-- The last line of the body of a loop that advances by itself. -/
def footer : LoopFooter → List CodeLine
  | .advance .up counter step =>
    [{ text := p.text counter ++ " += " ++ p.text step, depth := 1 }]
  | .advance .down counter step =>
    [{ text := p.text counter ++ " -= " ++ p.text step, depth := 1 }]
  | _ => []

/-- The lines of an action. -/
def lines : Action → Except Overflow (List CodeLine)
  | .assign _ target value => return [{ text := p.text target ++ " = " ++ p.text value }]
  | .initializeArray target items =>
    return [{ text := p.text target ++ " = [" ++ p.texts items ++ "]" }]
  | .fillArray target value =>
    return [{ text := p.text target ++ " = [" ++ p.text value ++ "] * len(" ++ p.text target
        ++ ")" }]
  | .change .up target amount => return [{ text := p.text target ++ " += " ++ p.text amount }]
  | .change .down target amount => return [{ text := p.text target ++ " -= " ++ p.text amount }]
  | .output items => return [{ text := "print(" ++ p.texts items ++ ")" }]
  | .ifThen e => return [{ text := "if " ++ p.text e ++ ":" }]
  | .elseIf e => return [{ text := "elif " ++ p.text e ++ ":" }]
  | .otherwise => return [{ text := "else:" }]
  | .whileLoop e => return [{ text := "while " ++ p.text e ++ ":" }]
  | .doWhile => return [{ text := "while True:" }]
  | .endDoWhile e =>
    return [{ text := "if not " ++ (p.print e).atom ++ ":", depth := 1 },
      { text := "break", depth := 2 }]
  | .count direction counter first last step =>
    if countsInFractions [first, last, step] then
      return fractionHeader p direction counter first last
    else do
      return [{ text := ← rangeHeader p direction counter first last step }]
  | .endCount loopFooter => return footer p loopFooter
  | .endIf | .endWhile | .endFunction => return []
  | .defineFunction name parameters =>
    return [{ text := "def " ++ p.name name ++ "(" ++ p.texts parameters ++ "):" }]
  | .callFunction name args => return [{ text := p.name name ++ "(" ++ p.texts args ++ ")" }]
  | .leaveLoop _ => return [{ text := "break" }]
  | .region label => return [.comment "#" ("begin: " ++ label)]
  | .endRegion label => return [.comment "#" ("end: " ++ label)]

/-- What stands in a body that would otherwise be empty. The body of a loop with its test at
the end never is. -/
def emptyBody? : StatementKind → Option CodeLine
  | .doWhile | .region => none
  | _ => some { text := "pass" }

/-- What a program starts with if it draws random numbers. -/
def randomImport : List CodeLine :=
  [{ text := "import random" }, { text := "" }]

end Python

end BlockCode
