/- # Printed expressions

The text of an expression together with how tightly it binds. Whoever puts the text into a
larger one says what binding strength the place needs, and parentheses appear only where the
text binds too loosely for it.
-/

import BlockCode.Expr.Precedence

namespace BlockCode

/-- The text of an expression and the level on which it binds. -/
structure Printed where
  text : String
  precedence : Precedence
  deriving DecidableEq, Repr, Inhabited

namespace Printed

/-- Text that nothing can pull apart. -/
def primary (text : String) : Printed :=
  ⟨text, .primary⟩

/-- The text in parentheses. -/
def parenthesized (p : Printed) : String :=
  "(" ++ p.text ++ ")"

/-- The text for a place that needs at least the level. -/
def atLeast (p : Printed) (level : Precedence) : String :=
  if level ≤ p.precedence then p.text else p.parenthesized

/-- The text for a place that needs more than the level. -/
def tighterThan (p : Printed) (level : Precedence) : String :=
  if level < p.precedence then p.text else p.parenthesized

/-- The text for a place where only a unit may stand. -/
def atom (p : Printed) : String :=
  p.atLeast .primary

end Printed

/-- Texts with commas between them. -/
def commaList (texts : List String) : String :=
  ", ".intercalate texts

end BlockCode
