/- # JSON

The values of the JSON data format and their layout as text. A number is kept as the decimal
it was written as, with its sign, so that nothing is rounded and minus zero stays what it is.
A string literal may name a code unit that is half of a character; such a literal is well
formed but denotes no text, and its value says so.

The layout puts each member and element on a line of its own, two blanks further in than what
holds it. An empty list takes no line.
-/

import BlockCode.Text.Basic

namespace BlockCode

/-- A JSON value. The members of an object keep the order in which they were written, and a
name may occur more than once. -/
inductive Json where
  | null
  | bool (value : Bool)
  | number (negative : Bool) (coefficient : Nat) (exponent : Int)
  | string (text? : Option String)
  | array (items : List Json)
  | object (members : List (Option String × Json))
  deriving Inhabited, BEq

namespace Json

/-- A string value. -/
def ofString (text : String) : Json :=
  .string (some text)

/-- An object with the given members. -/
def ofMembers (members : List (String × Json)) : Json :=
  .object (members.map fun (name, value) => (some name, value))

/-- Four hexadecimal digits of a code unit. -/
def fourHexDigits (code : Nat) : List Char :=
  let digits := hexDigits code
  List.replicate (4 - digits.length) '0' ++ digits

/-- One character inside a string literal. Only the double quote, the backslash and the
controls are escaped. -/
def quotedChar (c : Char) : List Char :=
  if c == '"' || c == '\\' then ['\\', c]
  else if c == '\x08' then ['\\', 'b']
  else if c == '\x0c' then ['\\', 'f']
  else if c == '\n' then ['\\', 'n']
  else if c == '\r' then ['\\', 'r']
  else if c == '\t' then ['\\', 't']
  else if c.toNat < 0x20 then '\\' :: 'u' :: fourHexDigits c.toNat
  else [c]

/-- A string literal. -/
def quoted (text : List Char) : List Char :=
  '"' :: text.flatMap quotedChar ++ ['"']

/-- A line break followed by the given number of blanks. -/
def lineBreak (indent : Nat) : List Char :=
  '\n' :: List.replicate indent ' '

/-- A number as an integer with a power of ten. -/
def numeral (negative : Bool) (coefficient : Nat) (exponent : Int) : List Char :=
  (if negative then ['-'] else []) ++ Nat.toDigits 10 coefficient
    ++ (if exponent == 0 then [] else 'e' :: (toString exponent).toList)

mutual

/-- The layout of a value whose first line already stands at the given indentation. -/
def layoutAt (indent : Nat) : Json → List Char
  | .null => "null".toList
  | .bool true => "true".toList
  | .bool false => "false".toList
  | .number negative coefficient exponent => numeral negative coefficient exponent
  | .string text? => quoted (text?.getD "").toList
  | .array [] => ['[', ']']
  | .array (item :: items) =>
    '[' :: lineBreak (indent + 2) ++ layoutAt (indent + 2) item
      ++ layoutItems (indent + 2) items ++ lineBreak indent ++ [']']
  | .object [] => ['\x7b', '\x7d']
  | .object (member :: members) =>
    '\x7b' :: lineBreak (indent + 2) ++ layoutMember (indent + 2) member
      ++ layoutMembers (indent + 2) members ++ lineBreak indent ++ ['\x7d']

/-- The elements of an array after its first. -/
def layoutItems (indent : Nat) : List Json → List Char
  | [] => []
  | item :: items => ',' :: lineBreak indent ++ layoutAt indent item ++ layoutItems indent items

/-- One member of an object. -/
def layoutMember (indent : Nat) : Option String × Json → List Char
  | (name?, value) => quoted (name?.getD "").toList ++ ':' :: ' ' :: layoutAt indent value

/-- The members of an object after its first. -/
def layoutMembers (indent : Nat) : List (Option String × Json) → List Char
  | [] => []
  | member :: members =>
    ',' :: lineBreak indent ++ layoutMember indent member ++ layoutMembers indent members

end

/-- The value laid out as text. -/
def layout (value : Json) : String :=
  String.ofList (value.layoutAt 0)

end Json

end BlockCode
