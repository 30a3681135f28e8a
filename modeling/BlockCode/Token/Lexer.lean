/- # Reading tokens

At each place the longest token wins. The first character settles which class of tokens can
match, so the functions below give, for a class, the characters that the longest token has
beyond its first. Reading stops at the first character that starts no token.

A name may be dotted, as in `xs.length`. Dots after a name belong to the name even when nothing
follows them that could continue the name; such a name is then no variable name for any slot,
but the text around it still reads. The word of the user marker is a name too when a dot stands
in place of its colon. The name then goes on behind the dot with any of its characters, so
`UserDefined.1` is one name, while `a.1` is the name `a.` and a number.
-/

import BlockCode.Text.Basic
import BlockCode.Text.Blank
import BlockCode.Text.Letter
import BlockCode.Text.Numeral
import BlockCode.Token.Basic

namespace BlockCode

/-- The white space that may stand between tokens. -/
def isTokenGap (c : Char) : Bool :=
  c == ' ' || c == '\t' || c == '\r' || c == '\n' || c == '\x0c'

/-- Whether a name may start with the character. -/
def isNameStart (c : Char) : Bool :=
  c == '_' || isLetter c

/-- Whether a name may go on with the character. -/
def isNamePart (c : Char) : Bool :=
  c == '_' || isLetter c || isNumeral c

/-- The continuation of a name: name characters and dots. A dot that neither a new name nor
another dot follows is the last character taken. -/
def nameTail : List Char → List Char
  | [] => []
  | c :: rest =>
    if isNamePart c then c :: nameTail rest
    else if c == '.' then
      if rest.head?.any fun d => d == '.' || isNameStart d then c :: nameTail rest else [c]
    else []

/-- The mark in front of the name of a user-defined function. -/
def userMarkerText : String := "UserDefined:"

/-- The word of the user marker with a dot in place of its colon. -/
def dottedUserWord : List Char := "UserDefined.".toList

/-- The continuation of a name after its first character. Behind the dotted word of the user
marker any character of a name may follow, and not only one that may start a name. -/
def wordTail (first : Char) (rest : List Char) : List Char :=
  match afterWord? dottedUserWord (first :: rest) with
  | some behind => dottedUserWord.tail ++ nameTail behind
  | none => nameTail rest

/-- The continuation of a number: more digits, then a fraction if the dot has a digit behind
it. -/
def numberTail (text : List Char) : List Char :=
  let digits := text.takeWhile isAsciiDigit
  match text.dropWhile isAsciiDigit with
  | '.' :: rest =>
    let fraction := rest.takeWhile isAsciiDigit
    if fraction.isEmpty then digits else digits ++ '.' :: fraction
  | _ => digits

/-- The continuation of a string after its opening quote, and whether it closes. A backslash
takes the next character with it, whatever it is, but a line feed stops the string. -/
def stringTail : List Char → List Char × Bool
  | [] => ([], false)
  | c :: rest =>
    if c == '"' then ([c], true)
    else if c == '\\' then
      match rest with
      | [] => ([], false)
      | d :: rest =>
        if d == '\n' then ([], false)
        else
          let (tail, closed) := stringTail rest
          (c :: d :: tail, closed)
    else
      let (tail, closed) := stringTail rest
      (c :: tail, closed)

/-- The words that are no names, in lower case. They are recognised in any case. -/
def keywords : List (String × TokenKind) :=
  [("true", .trueWord), ("false", .falseWord), ("and", .and), ("or", .or), ("not", .not)]

/-- The kind of a token that has the form of a name. -/
def wordKind (word : List Char) : TokenKind :=
  ((keywords.find? fun (keyword, _) => keyword == lowerAscii (String.ofList word)).map
    Prod.snd).getD .name

/-- Operators and delimiters. A longer spelling stands before every shorter one that it
starts with, so the first that matches is the longest. -/
def operatorWords : List (String × TokenKind) :=
  [("===", .equal), ("!==", .notEqual),
    ("**", .power), ("//", .floorSlash), ("==", .equal), ("!=", .notEqual), ("<>", .notEqual),
    ("<=", .lessEqual), (">=", .greaterEqual), ("&&", .and), ("||", .or),
    ("+", .plus), ("-", .minus), ("*", .star), ("/", .slash), ("%", .percent), ("=", .equal),
    ("<", .less), (">", .greater), ("!", .not), ("(", .leftParen), (")", .rightParen),
    ("[", .leftBracket), ("]", .rightBracket), (",", .comma)]

/-- The longest token that starts with the character and goes on in the text: its kind and
its characters beyond the first. -/
def tokenTail? (first : Char) (rest : List Char) : Option (TokenKind × List Char) :=
  if isNameStart first then
    match startsWithWord userMarkerText.toList (first :: rest) with
    | true => some (.userMarker, userMarkerText.toList.tail)
    | false =>
      let tail := wordTail first rest
      some (wordKind (first :: tail), tail)
  else if isAsciiDigit first then some (.number, numberTail rest)
  else if first == '"' then
    let (tail, closed) := stringTail rest
    some (if closed then .string else .unclosedString, tail)
  else
    (operatorWords.find? fun (word, _) => startsWithWord word.toList (first :: rest)).map
      fun (word, kind) => (kind, word.toList.tail)

/-- The tokens of the text, whose first character stands at the given offset. -/
def lexFrom (offset : Nat) : List Char → Except LexError (List Token)
  | [] => .ok []
  | c :: rest =>
    if isTokenGap c then lexFrom (offset + c.utf8Size) rest
    else
      match tokenTail? c rest with
      | none => .error ⟨c, offset⟩
      | some (kind, tail) => do
        let stop := offset + utf8Length (c :: tail)
        let tokens ← lexFrom stop (rest.drop tail.length)
        return ⟨kind, ⟨offset, stop⟩, String.ofList (c :: tail)⟩ :: tokens
termination_by text => text.length
decreasing_by all_goals (simp only [List.length_cons, List.length_drop]; omega)

/-- The tokens of a whole text. -/
def lex (text : String) : Except LexError (List Token) :=
  lexFrom 0 text.toList

/-- Whether the trimmed text is exactly one token of the kind. -/
def isSingleToken (text : String) (kind : TokenKind) : Bool :=
  match lex (trim text) with
  | .ok [token] => token.kind == kind && token.text == trim text
  | _ => false

end BlockCode
