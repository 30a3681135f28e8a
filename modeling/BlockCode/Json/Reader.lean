/- # Reading JSON

A reader for the whole grammar, with nesting to any depth. White space is the blank, the tab,
the line feed and the carriage return; anything but white space after the value is refused,
and so is a control character inside a string literal.
-/

import BlockCode.Json.Basic

namespace BlockCode

namespace Json

/-- The white space between tokens. -/
def isGap (c : Char) : Bool :=
  c == ' ' || c == '\t' || c == '\n' || c == '\r'

/-- The text behind the white space at its front. -/
def skipGap (text : List Char) : List Char :=
  text.dropWhile isGap

/-- The characters of a string literal up to its closing quote, escapes not yet resolved. -/
def rawString? : List Char → Option (List Char)
  | [] => none
  | c :: rest =>
    if c == '"' then some []
    else if c == '\\' then
      match rest with
      | [] => none
      | d :: rest => (rawString? rest).map (c :: d :: ·)
    else if c.toNat < 0x20 then none
    else (rawString? rest).map (c :: ·)

/-- The value of a hexadecimal digit of either case. -/
def hexValue? (c : Char) : Option Nat :=
  if isAsciiDigit c then some (c.toNat - '0'.toNat)
  else if 'a'.toNat ≤ c.toNat && c.toNat ≤ 'f'.toNat then some (c.toNat - 'a'.toNat + 10)
  else if 'A'.toNat ≤ c.toNat && c.toNat ≤ 'F'.toNat then some (c.toNat - 'A'.toNat + 10)
  else none

/-- The character that a letter behind a backslash stands for. -/
def shortEscape? (c : Char) : Option Char :=
  if c == '"' || c == '\\' || c == '/' then some c
  else if c == 'b' then some '\x08'
  else if c == 'f' then some '\x0c'
  else if c == 'n' then some '\n'
  else if c == 'r' then some '\r'
  else if c == 't' then some '\t'
  else none

/-- The code points and code units that the characters of a literal name. Characters that
stand for themselves are never in the range of the halves. -/
def codeUnits? : List Char → Option (List Nat)
  | [] => some []
  | '\\' :: 'u' :: a :: b :: c :: d :: rest => do
    let unit := 4096 * (← hexValue? a) + 256 * (← hexValue? b) + 16 * (← hexValue? c)
      + (← hexValue? d)
    return unit :: (← codeUnits? rest)
  | '\\' :: e :: rest => do
    let c ← shortEscape? e
    return c.toNat :: (← codeUnits? rest)
  | c :: rest => do
    return c.toNat :: (← codeUnits? rest)

/-- Whether the code unit is the first half of a character. -/
def isFirstHalf (unit : Nat) : Bool :=
  0xD800 ≤ unit && unit < 0xDC00

/-- Whether the code unit is the second half of a character. -/
def isSecondHalf (unit : Nat) : Bool :=
  0xDC00 ≤ unit && unit < 0xE000

/-- The text of the code units. A half without its other half makes it no text at all. -/
def textOfUnits? : List Nat → Option (List Char)
  | [] => some []
  | first :: rest =>
    if isFirstHalf first then
      match rest with
      | [] => none
      | second :: rest =>
        if isSecondHalf second then
          (textOfUnits? rest).map
            (Char.ofNat (0x10000 + 0x400 * (first - 0xD800) + (second - 0xDC00)) :: ·)
        else none
    else if isSecondHalf first then none
    else (textOfUnits? rest).map (Char.ofNat first :: ·)

/-- What a string literal whose opening quote is read denotes, and how many more characters
it has. -/
def readString? (text : List Char) : Option (Option String × Nat) := do
  let raw ← rawString? text
  let units ← codeUnits? raw
  return ((textOfUnits? units).map String.ofList, raw.length + 1)

/-- The fraction of a number: its digits and how many characters it has. A text that does not
start with a point has none. -/
def readFraction? : List Char → Option (List Char × Nat)
  | '.' :: rest =>
    let digits := rest.takeWhile isAsciiDigit
    if digits.isEmpty then none else some (digits, digits.length + 1)
  | _ => some ([], 0)

/-- The power of ten of a number and how many characters it has. -/
def readExponent? : List Char → Option (Int × Nat)
  | [] => some (0, 0)
  | c :: rest =>
    if c == 'e' || c == 'E' then
      let (sign, digits) : Option Char × List Char :=
        match rest with
        | '+' :: digits => (some '+', digits)
        | '-' :: digits => (some '-', digits)
        | digits => (none, digits)
      let digits := digits.takeWhile isAsciiDigit
      if digits.isEmpty then none
      else
        let power : Int := digitsValue digits
        some (if sign == some '-' then -power else power,
          digits.length + 1 + (if sign.isSome then 1 else 0))
    else some (0, 0)

/-- A number at the front of the text and how many characters it has. -/
def readNumber? (text : List Char) : Option (Json × Nat) := do
  let negative := text.head? == some '-'
  let unsigned := if negative then text.tail else text
  let whole := unsigned.takeWhile isAsciiDigit
  if whole.isEmpty || (whole.length > 1 && whole.head? == some '0') then none
  else
    let behind := unsigned.drop whole.length
    let (fraction, n) ← readFraction? behind
    let (power, k) ← readExponent? (behind.drop n)
    return (.number negative (digitsValue (whole ++ fraction)) (power - fraction.length),
      (if negative then 1 else 0) + whole.length + n + k)

/-- The value that starts with the character and goes on in the text, if it is no array and
no object, and how many characters it has beyond the first. -/
def readLeaf? (first : Char) (rest : List Char) : Option (Json × Nat) :=
  if first == '"' then (readString? rest).map fun (text?, n) => (.string text?, n)
  else if startsWithWord "null".toList (first :: rest) then some (.null, 3)
  else if startsWithWord "true".toList (first :: rest) then some (.bool true, 3)
  else if startsWithWord "false".toList (first :: rest) then some (.bool false, 4)
  else (readNumber? (first :: rest)).map fun (value, n) => (value, n - 1)

/-- What a reader finds in a text of `n` characters: a value and a shorter text. -/
abbrev Found (α : Type) (n : Nat) :=
  Option { p : α × List Char // p.2.length < n }

theorem length_skipGap_le (text : List Char) : (skipGap text).length ≤ text.length :=
  (List.dropWhile_sublist isGap).length_le

/-- The text behind the given character, when only white space stands in front of it. -/
def behindMark? (mark : Char) (text : List Char) :
    Option { rest : List Char // rest.length < text.length } :=
  match h : skipGap text with
  | [] => none
  | c :: rest =>
    if c == mark then
      some ⟨rest, by have := length_skipGap_le text; rw [h] at this; simp at this; omega⟩
    else none

mutual

/-- A value, with white space allowed in front of it. -/
def readValue? (text : List Char) : Found Json text.length :=
  match h : skipGap text with
  | [] => none
  | first :: rest =>
    have shorter : rest.length < text.length := by
      have := length_skipGap_le text
      rw [h] at this
      simp at this
      omega
    if first == '[' then
      match behindMark? ']' rest with
      | some ⟨rest₁, h₁⟩ => some ⟨(.array [], rest₁), by simp; omega⟩
      | none => do
        let ⟨(items, rest₁), h₁⟩ ← readItems? rest
        return ⟨(.array items, rest₁), by simp at h₁ ⊢; omega⟩
    else if first == '\x7b' then
      match behindMark? '\x7d' rest with
      | some ⟨rest₁, h₁⟩ => some ⟨(.object [], rest₁), by simp; omega⟩
      | none => do
        let ⟨(members, rest₁), h₁⟩ ← readMembers? rest
        return ⟨(.object members, rest₁), by simp at h₁ ⊢; omega⟩
    else do
      let (value, n) ← readLeaf? first rest
      return ⟨(value, rest.drop n), by simp; omega⟩
termination_by 2 * text.length

/-- One or more elements and the bracket that closes them. -/
def readItems? (text : List Char) : Found (List Json) text.length := do
  let ⟨(item, rest), h⟩ ← readValue? text
  match behindMark? ',' rest with
  | some ⟨rest₁, h₁⟩ => do
    let ⟨(items, rest₂), h₂⟩ ← readItems? rest₁
    return ⟨(item :: items, rest₂), by simp at h h₂ ⊢; omega⟩
  | none => do
    let ⟨rest₁, h₁⟩ ← behindMark? ']' rest
    return ⟨([item], rest₁), by simp at h ⊢; omega⟩
termination_by 2 * text.length + 1
decreasing_by all_goals simp_all <;> omega

/-- One or more members and the brace that closes them. -/
def readMembers? (text : List Char) : Found (List (Option String × Json)) text.length := do
  let ⟨rest, h⟩ ← behindMark? '"' text
  let (name?, n) ← readString? rest
  let ⟨rest₁, h₁⟩ ← behindMark? ':' (rest.drop n)
  have shorter : rest₁.length < text.length := by
    simp only [List.length_drop] at h₁
    omega
  let ⟨(value, rest₂), h₂⟩ ← readValue? rest₁
  match behindMark? ',' rest₂ with
  | some ⟨more, hm⟩ => do
    let ⟨(members, rest₃), h₃⟩ ← readMembers? more
    return ⟨((name?, value) :: members, rest₃), by simp at h₂ h₃ ⊢; omega⟩
  | none => do
    let ⟨rest₃, h₃⟩ ← behindMark? '\x7d' rest₂
    return ⟨([(name?, value)], rest₃), by simp at h₂ ⊢; omega⟩
termination_by 2 * text.length + 1
decreasing_by all_goals (simp_all; omega)

end

/-- The value that the whole text spells. -/
def read? (text : String) : Option Json := do
  let ⟨(value, rest), _⟩ ← readValue? text.toList
  if (skipGap rest).isEmpty then some value else none

end Json

end BlockCode
