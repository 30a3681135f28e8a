/- # Statements in VBA

Every block has a closing line, and the one of a counting loop names the variable again. No
statement may stand outside a procedure.
-/

import BlockCode.Target.Action
import BlockCode.Target.CodeLine
import BlockCode.Target.ExprPrinter
import BlockCode.Target.Step

namespace BlockCode

namespace Vba

variable (p : ExprPrinter)

/-- The variable of the loop that fills an array. -/
def fillIndex : String := "fill_index"

/-- The loop that fills an array, on one line. -/
def fillLoop (target value : String) : String :=
  "For " ++ fillIndex ++ " = LBound(" ++ target ++ ") To UBound(" ++ target ++ "): " ++ target
    ++ "(" ++ fillIndex ++ ") = " ++ value ++ ": Next " ++ fillIndex

/-- What is put out. Several items stand on one line with blanks between them; the operator
that joins them binds more loosely than arithmetic and more tightly than comparisons. -/
def outputItems : List Expr → String
  | [item] => p.text item
  | items => " & \" \" & ".intercalate (items.map fun item => (p.print item).atLeast .additive)

/-- The header of a counting loop. -/
def loopHeader (direction : Direction) (counter first last step : Expr) :
    Except Overflow String := do
  let header := "For " ++ p.text counter ++ " = " ++ p.text first ++ " To " ++ p.text last
  match direction with
  | .up =>
    if (p.print step).isOne then return header else return header ++ " Step " ++ p.text step
  | .down => return header ++ " Step " ++ (← (p.print step).negated)

/-- The end of a counting loop. -/
def loopEnd : LoopFooter → String
  | .counter counter | .advance _ counter _ => "Next " ++ p.text counter
  | .bare => "Next"

/-- The lines of an action. -/
def lines : Action → Except Overflow (List CodeLine)
  | .assign constant target value =>
    return [{ text := (if constant then "Const " else "") ++ p.text target ++ " = "
        ++ p.text value }]
  | .initializeArray target items =>
    return [{ text := p.text target ++ " = Array(" ++ p.texts items ++ ")" }]
  | .fillArray target value => return [{ text := fillLoop (p.text target) (p.text value) }]
  | .change direction target amount =>
    let sign := match direction with | .up => " + " | .down => " - "
    return [{ text := p.text target ++ " = " ++ p.text target ++ sign
        ++ (p.print amount).tighterThan .additive }]
  | .output items => return [{ text := "Debug.Print " ++ outputItems p items }]
  | .ifThen e => return [{ text := "If " ++ p.text e ++ " Then" }]
  | .elseIf e => return [{ text := "ElseIf " ++ p.text e ++ " Then" }]
  | .otherwise => return [{ text := "Else" }]
  | .endIf => return [{ text := "End If" }]
  | .whileLoop e => return [{ text := "Do While " ++ p.text e }]
  | .endWhile => return [{ text := "Loop" }]
  | .doWhile => return [{ text := "Do" }]
  | .endDoWhile e => return [{ text := "Loop While " ++ p.text e }]
  | .count direction counter first last step => do
    return [{ text := ← loopHeader p direction counter first last step }]
  | .endCount footer => return [{ text := loopEnd p footer }]
  | .defineFunction name parameters =>
    return [{ text := "Sub " ++ p.name name ++ "(" ++ p.texts parameters ++ ")" }]
  | .endFunction => return [{ text := "End Sub" }]
  | .callFunction name args =>
    return [{ text := "Call " ++ p.name name ++ "(" ++ p.texts args ++ ")" }]
  | .leaveLoop loop? =>
    return [{ text := if loop?.any StatementKind.isCountingLoop then "Exit For" else "Exit Do" }]
  | .region label => return [.comment "'" ("begin: " ++ label)]
  | .endRegion label => return [.comment "'" ("end: " ++ label)]

/-- The line that opens the procedure around the statements that stand in no function. -/
def entryLine (name : String) : CodeLine :=
  { text := "Sub " ++ name ++ "()" }

/-- The line that closes the procedure. -/
def exitLine : CodeLine :=
  { text := "End Sub" }

end Vba

end BlockCode
