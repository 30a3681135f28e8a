/- # Statements in JavaScript

Blocks are written with braces, so every block has a line of its own to close it.
-/

import BlockCode.Target.Action
import BlockCode.Target.CodeLine
import BlockCode.Target.ExprPrinter
import BlockCode.Target.Step

namespace BlockCode

/-- The expression without one pair of parentheses around the whole. -/
def Expr.ungrouped : Expr → Expr
  | .group _ inner => inner
  | e => e

namespace JavaScript

variable (p : ExprPrinter)

/-- A condition in the parentheses that the language asks for. -/
def condition (e : Expr) : String :=
  "(" ++ p.text e.ungrouped ++ ")"

/-- The header of a counting loop. -/
def loopHeader (direction : Direction) (counter first last step : Expr) : String :=
  let name := p.text counter
  let compare := match direction with | .up => "<=" | .down => ">="
  let sign := match direction with | .up => "+" | .down => "-"
  let advance :=
    if (p.print step).isOne then name ++ sign ++ sign
    else name ++ " " ++ sign ++ "= " ++ p.text step
  "for (let " ++ name ++ " = " ++ p.text first ++ "; " ++ name ++ " " ++ compare ++ " "
    ++ p.text last ++ "; " ++ advance ++ ") \x7b"

/-- The lines of an action. -/
def lines : Action → List CodeLine
  | .assign constant target value =>
    [{ text := (if constant then "const " else "") ++ p.text target ++ " = " ++ p.text value
        ++ ";" }]
  | .initializeArray target items =>
    [{ text := p.text target ++ " = [" ++ p.texts items ++ "];" }]
  | .fillArray target value => [{ text := p.text target ++ ".fill(" ++ p.text value ++ ");" }]
  | .change .up target amount =>
    [{ text := p.text target ++ " += " ++ p.text amount ++ ";" }]
  | .change .down target amount =>
    [{ text := p.text target ++ " -= " ++ p.text amount ++ ";" }]
  | .output items => [{ text := "console.log(" ++ p.texts items ++ ");" }]
  | .ifThen e => [{ text := "if " ++ condition p e ++ " \x7b" }]
  | .elseIf e => [{ text := "\x7d else if " ++ condition p e ++ " \x7b" }]
  | .otherwise => [{ text := "\x7d else \x7b" }]
  | .whileLoop e => [{ text := "while " ++ condition p e ++ " \x7b" }]
  | .doWhile => [{ text := "do \x7b" }]
  | .endDoWhile e => [{ text := "\x7d while " ++ condition p e ++ ";" }]
  | .count direction counter first last step =>
    [{ text := loopHeader p direction counter first last step }]
  | .endIf | .endWhile | .endCount _ | .endFunction => [{ text := "\x7d" }]
  | .defineFunction name parameters =>
    [{ text := "function " ++ p.name name ++ "(" ++ p.texts parameters ++ ") \x7b" }]
  | .callFunction name args => [{ text := p.name name ++ "(" ++ p.texts args ++ ");" }]
  | .leaveLoop _ => [{ text := "break;" }]
  | .region label => [.comment "//" ("begin: " ++ label)]
  | .endRegion label => [.comment "//" ("end: " ++ label)]

end JavaScript

end BlockCode
