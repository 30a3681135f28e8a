/- # What a field may hold

The fields of a form are held to narrow grammars: names, numbers and positions in an array.
Each grammar is stated with the lexer, so that a text it admits is read as what it was
admitted for.
-/

import BlockCode.Fragment.Glyphs
import BlockCode.Fragment.Reserved
import BlockCode.Text.Uppercase
import BlockCode.Token.Lexer

namespace BlockCode

/-- A variable name: one name without dots that no target reserves. -/
def isVariableName (text : String) : Bool :=
  isSingleToken text .name && !(trimChars text.toList).contains '.' && !isReserved text

/-- A decimal number with at most one minus sign, which stands directly before the digits. -/
def isNumberText (text : String) : Bool :=
  let digits :=
    match trimChars text.toList with
    | '-' :: digits => digits
    | digits => digits
  isSingleToken (String.ofList digits) .number && !digits.head?.any isBlank

/-- A position in an array: a name, a number, or several of these between commas. -/
def isPositionText (text : String) : Bool :=
  (stringPiecesAt ',' (foldGlyphsText text)).all fun item =>
    isVariableName item || isNumberText item

/-- The name of a constant: a variable name that starts with an uppercase letter. -/
def isConstantName (text : String) : Bool :=
  isVariableName text && (trimChars text.toList).head?.any isUppercase

end BlockCode
