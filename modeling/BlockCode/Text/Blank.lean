/- # White space

Two notions of white space meet in this library. Between tokens the lexer skips five ASCII
characters only. Everywhere else, when a field is trimmed or an operand is looked for, the
White_Space property decides, which also covers the ideographic space and the no-break
space.
-/

import BlockCode.Text.CharClass

namespace BlockCode

/-- The characters with the White_Space property. -/
def blankClass : CharClass := [
  (0x9, 0xD), (0x20, 0x20), (0x85, 0x85), (0xA0, 0xA0), (0x1680, 0x1680), (0x2000, 0x200A),
  (0x2028, 0x2029), (0x202F, 0x202F), (0x205F, 0x205F), (0x3000, 0x3000)]

/-- Whether the character is white space in any script. -/
def isBlank (c : Char) : Bool :=
  blankClass.has c

/-- The text without white space at either end. -/
def trimChars (text : List Char) : List Char :=
  ((text.dropWhile isBlank).reverse.dropWhile isBlank).reverse

/-- The string without white space at either end. -/
def trim (text : String) : String :=
  String.ofList (trimChars text.toList)

end BlockCode
