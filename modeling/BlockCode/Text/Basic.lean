/- # Text

Operations on lists of characters and on strings that every part of the library shares:
lengths in bytes, cutting at a separator, removing a leading word and comparing without
regard to the case of the ASCII letters. Scanning functions work on lists of characters,
which is where their laws are stated; values that a caller sees are strings.
-/

namespace BlockCode

/-- How many bytes the characters take in UTF-8. Offsets and spans count bytes. -/
def utf8Length : List Char → Nat
  | [] => 0
  | c :: rest => c.utf8Size + utf8Length rest

/-- The pieces between the separators. There is one piece more than there are separators,
so the empty text is one empty piece. -/
def piecesAt (separator : Char) : List Char → List (List Char)
  | [] => [[]]
  | c :: rest =>
    if c == separator then [] :: piecesAt separator rest
    else match piecesAt separator rest with
      | [] => [[c]]
      | piece :: pieces => (c :: piece) :: pieces

/-- The pieces of a string between the separators, as strings. -/
def stringPiecesAt (separator : Char) (text : String) : List String :=
  (piecesAt separator text.toList).map String.ofList

/-- What follows the word, if the text starts with it. -/
def afterWord? : List Char → List Char → Option (List Char)
  | [], text => some text
  | _ :: _, [] => none
  | w :: word, c :: text => if w == c then afterWord? word text else none

/-- Whether the text starts with the word. -/
def startsWithWord (word text : List Char) : Bool :=
  (afterWord? word text).isSome

/-- The text with its ASCII letters in lower case. -/
def lowerAscii (text : String) : String :=
  String.ofList (text.toList.map Char.toLower)

/-- Whether every character belongs to the ASCII block. -/
def isAsciiText (text : String) : Bool :=
  text.toList.all fun c => c.toNat < 128

/-- The code point in hexadecimal digits, without leading zeros. -/
def hexDigits (code : Nat) : List Char :=
  Nat.toDigits 16 code

/-- The value of a run of decimal digits. -/
def digitsValue (digits : List Char) : Nat :=
  digits.foldl (fun value d => 10 * value + (d.toNat - '0'.toNat)) 0

/-- Whether the character is one of the ten ASCII digits. -/
def isAsciiDigit (c : Char) : Bool :=
  '0'.toNat ≤ c.toNat && c.toNat ≤ '9'.toNat

/-- Whether the character is one of the 52 ASCII letters. -/
def isAsciiLetter (c : Char) : Bool :=
  ('a'.toNat ≤ c.toNat && c.toNat ≤ 'z'.toNat) || ('A'.toNat ≤ c.toNat && c.toNat ≤ 'Z'.toNat)

end BlockCode
