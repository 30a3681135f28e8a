/- # Statements in Ruby

Every block is closed by the same word, except that a loop with its test at the end has its
condition there. Counting loops are calls with a block.
-/

import BlockCode.Target.Action
import BlockCode.Target.CodeLine
import BlockCode.Target.ExprPrinter
import BlockCode.Target.Step

namespace BlockCode

namespace Ruby

variable (p : ExprPrinter)

/-- What is put out. Several items are joined to one line. -/
def outputItems : List Expr → String
  | [item] => p.text item
  | items => "[" ++ p.texts items ++ "].join(\" \")"

/-- The call that a counting loop is. -/
def loopCall (direction : Direction) (first last step : Expr) : Except Overflow String := do
  let start := p.print first
  let stop := p.text last
  match direction, (p.print step).isOne with
  | .up, true => return "(" ++ start.atLeast .additive ++ ".." ++ stop ++ ").each"
  | .up, false => return start.atom ++ ".step(" ++ stop ++ ", " ++ p.text step ++ ")"
  | .down, true => return start.atom ++ ".downto(" ++ stop ++ ")"
  | .down, false =>
    return start.atom ++ ".step(" ++ stop ++ ", " ++ (← (p.print step).negated) ++ ")"

/-- The lines of an action. -/
def lines : Action → Except Overflow (List CodeLine)
  | .assign _ target value => return [{ text := p.text target ++ " = " ++ p.text value }]
  | .initializeArray target items =>
    return [{ text := p.text target ++ " = [" ++ p.texts items ++ "]" }]
  | .fillArray target value =>
    return [{ text := p.text target ++ ".fill(" ++ p.text value ++ ")" }]
  | .change .up target amount => return [{ text := p.text target ++ " += " ++ p.text amount }]
  | .change .down target amount => return [{ text := p.text target ++ " -= " ++ p.text amount }]
  | .output items => return [{ text := "puts " ++ outputItems p items }]
  | .ifThen e => return [{ text := "if " ++ p.text e }]
  | .elseIf e => return [{ text := "elsif " ++ p.text e }]
  | .otherwise => return [{ text := "else" }]
  | .whileLoop e => return [{ text := "while " ++ p.text e }]
  | .doWhile => return [{ text := "begin" }]
  | .endDoWhile e => return [{ text := "end while " ++ p.text e }]
  | .count direction counter first last step => do
    return [{ text := (← loopCall p direction first last step) ++ " do |" ++ p.text counter
                ++ "|" }]
  | .endIf | .endWhile | .endCount _ | .endFunction =>
    return [{ text := "end" }]
  | .defineFunction name parameters =>
    return [{ text := "def " ++ p.name name ++ "(" ++ p.texts parameters ++ ")" }]
  | .callFunction name args => return [{ text := p.name name ++ "(" ++ p.texts args ++ ")" }]
  | .leaveLoop _ => return [{ text := "break" }]
  | .region label => return [.comment "#" ("begin: " ++ label)]
  | .endRegion label => return [.comment "#" ("end: " ++ label)]

end Ruby

end BlockCode
