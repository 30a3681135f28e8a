/- # Quoted listings

A list of texts can be shown on one line of a listing: in brackets, separated by commas,
each text in double quotes. Whatever would not show as one visible character of its own is
written by its code point, so two different lists never look alike.
-/

import BlockCode.Text.Basic
import BlockCode.Text.Hidden

namespace BlockCode

/-- One character inside a quoted text. The plain space shows as itself. -/
def listedChar (c : Char) : List Char :=
  if c == ' ' then [c]
  else if c == '"' || c == '\\' then ['\\', c]
  else if c == '\t' then ['\\', 't']
  else if c == '\n' then ['\\', 'n']
  else if c == '\r' then ['\\', 'r']
  else if c == '\x00' then ['\\', '0']
  else if hiddenClass.has c then ['\\', 'u', '\x7b'] ++ hexDigits c.toNat ++ ['\x7d']
  else [c]

/-- A text in double quotes. -/
def listedText (text : String) : String :=
  String.ofList ('"' :: text.toList.flatMap listedChar ++ ['"'])

/-- A list of texts in brackets. -/
def listedTexts (texts : List String) : String :=
  "[" ++ ", ".intercalate (texts.map listedText) ++ "]"

end BlockCode
