/- # Tokens

An expression is written in tokens: literals, names, operators and delimiters. A token keeps
its text as written and the span of bytes it occupies, so that an error can point into the
text and a printed list of tokens can be compared with what was read.
-/

namespace BlockCode

/-- A range of bytes, from `start` up to but not including `stop`. -/
structure Span where
  start : Nat
  stop : Nat
  deriving DecidableEq, Repr, Inhabited

/-- The least span that covers both. -/
def Span.merge (a b : Span) : Span :=
  ⟨min a.start b.start, max a.stop b.stop⟩

/-- What a token is. An unclosed string is a token of its own, so that the text before and
after it can still be judged. -/
inductive TokenKind where
  | number
  | string
  | unclosedString
  | trueWord
  | falseWord
  | name
  | userMarker
  | plus
  | minus
  | star
  | power
  | slash
  | floorSlash
  | percent
  | equal
  | notEqual
  | less
  | lessEqual
  | greater
  | greaterEqual
  | and
  | or
  | not
  | leftParen
  | rightParen
  | leftBracket
  | rightBracket
  | comma
  deriving DecidableEq, Repr, Inhabited

/-- How messages speak of a token of this kind. -/
def TokenKind.label : TokenKind → String
  | .number => "number"
  | .string => "string"
  | .unclosedString => "unterminated string"
  | .trueWord => "true"
  | .falseWord => "false"
  | .name => "identifier"
  | .userMarker => "UserDefined:"
  | .plus => "+"
  | .minus => "-"
  | .star => "*"
  | .power => "**"
  | .slash => "/"
  | .floorSlash => "//"
  | .percent => "%"
  | .equal => "=="
  | .notEqual => "!="
  | .less => "<"
  | .lessEqual => "<="
  | .greater => ">"
  | .greaterEqual => ">="
  | .and => "&&"
  | .or => "||"
  | .not => "!"
  | .leftParen => "("
  | .rightParen => ")"
  | .leftBracket => "["
  | .rightBracket => "]"
  | .comma => ","

/-- A token with its place in the text. -/
structure Token where
  kind : TokenKind
  span : Span
  text : String
  deriving DecidableEq, Repr, Inhabited

/-- A character that starts no token. -/
structure LexError where
  char : Char
  offset : Nat
  deriving DecidableEq, Repr

/-- The wording of the error. -/
def LexError.message (e : LexError) : String :=
  "unexpected character `" ++ e.char.toString ++ "` at offset " ++ toString e.offset

end BlockCode
