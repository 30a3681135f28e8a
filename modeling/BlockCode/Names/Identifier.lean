/- # Identifiers of a program

The names that a program mentions in its expressions, and the spellings that replace some of
them. A dotted name counts as its segments, which are replaced one by one.
-/

import BlockCode.Program.Slots

namespace BlockCode

/-- The segments of a dotted name. -/
def nameSegments (name : String) : List String :=
  stringPiecesAt '.' name

/-- The segments of all names in an expression. -/
def Expr.identifiers (e : Expr) : List String :=
  (e.parts.filterMap Expr.ownName?).flatMap nameSegments

namespace Block

/-- All identifiers of a program, each once, in the order of their characters' code points. -/
def identifiers (program : Block) : List String :=
  let mentioned := program.statements.flatMap fun s => s.readableExprs.flatMap Expr.identifiers
  mentioned.eraseDups.mergeSort fun a b => decide (a ≤ b)

/-- The identifiers that hold a character outside ASCII. -/
def nonAsciiIdentifiers (program : Block) : List String :=
  program.identifiers.filter fun name => !isAsciiText name

end Block

/-- Identifiers with the spellings that replace them. -/
abbrev Spellings := List (String × String)

namespace Spellings

/-- The spelling of an identifier, if it has one. -/
def spelling? (spellings : Spellings) (identifier : String) : Option String :=
  spellings.lookup identifier

/-- A name with each of its segments replaced that has a spelling. -/
def rename (spellings : Spellings) (name : String) : String :=
  ".".intercalate ((nameSegments name).map fun segment =>
    (spellings.spelling? segment).getD segment)

end Spellings

end BlockCode
