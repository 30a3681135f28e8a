/- # User-defined functions

The functions that a program defines, each with its name and its number of parameters, in the
order of the outline. Where a call is looked up, the first definition of the name counts.
-/

import BlockCode.Fragment.Glyphs
import BlockCode.Program.Outline
import BlockCode.Text.Blank

namespace BlockCode

/-- The name of a function and how many arguments a call of it needs. -/
structure FunctionSignature where
  name : String
  parameters : Nat
  deriving DecidableEq, Repr, Inhabited

/-- The number of items in a list slot, counted by its commas. A blank slot has none. -/
def listLength (slot : String) : Nat :=
  let text := foldGlyphs slot.toList
  if (trimChars text).isEmpty then 0 else (piecesAt ',' text).length

/-- The function that the statement defines, if it is a definition. -/
def Statement.definition? (s : Statement) : Option FunctionSignature :=
  if s.kind = .defineFunction then some ⟨trim (s.slot 0), listLength (s.slot 1)⟩ else none

/-- The functions that a program defines. Repeated definitions are kept. -/
def Outline.functions (items : Outline) : List FunctionSignature :=
  items.filterMap fun item => item.statement.definition?

/-- The first function of the name. -/
def findFunction? (functions : List FunctionSignature) (name : String) :
    Option FunctionSignature :=
  functions.find? fun f => f.name == name

end BlockCode
