/- # From operand text to expression

A slot of a statement holds text as the user typed it. Before it means anything it goes
through fixed stages: glyphs are folded, trailing negations moved, brackets checked, the
expression read, and its names held against the reserved words. The first stage that refuses
the text gives the error.
-/

import BlockCode.Expr.Parser
import BlockCode.Fragment.Brackets
import BlockCode.Fragment.Glyphs
import BlockCode.Fragment.Negation
import BlockCode.Fragment.Reserved

namespace BlockCode

/-- The stages that only rewrite text. -/
def normalizeText (fragment : String) : Except ExprError String := do
  let text ← rewriteNegation (foldGlyphs fragment.toList)
  return String.ofList text

/-- The rewritten text, if its brackets are in order. The first bracket problem is reported. -/
def checkedText (fragment : String) : Except ExprError String := do
  let text ← normalizeText fragment
  match bracketErrors [text.toList] with
  | [] => return text
  | e :: _ => throw (.bracket e)

/-- Reads a slot as one expression. -/
def prepare (fragment : String) : Except ExprError Expr := do
  let e ← parseExpr (← checkedText fragment)
  checkNames e
  return e

/-- Reads a slot as a list of expressions. -/
def prepareList (fragment : String) : Except ExprError (List Expr) := do
  let items ← parseExprList (← checkedText fragment)
  items.forM checkNames
  return items

end BlockCode
