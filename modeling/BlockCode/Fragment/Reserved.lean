/- # Reserved words

A program is rendered into several languages, so a name must not be a keyword in any of them,
nor a name that generated code relies on. The words are compared without regard to case,
because one of the targets does not regard it either.
-/

import BlockCode.Expr.Error
import BlockCode.Text.Basic
import BlockCode.Text.Blank

namespace BlockCode

/-- Keywords of every target and the connectives of the pseudocode itself, in lower case. -/
def reservedWords : List String :=
  ["__encoding__", "__file__", "__line__", "alias", "and", "array", "as", "assert", "async",
    "await", "begin", "boolean", "break", "byref", "byte", "byval", "call", "case", "catch",
    "class", "const", "continue", "currency", "date", "debug", "debugger", "declare", "def",
    "default", "defined", "del", "delete", "dim", "do", "double", "each", "elif", "else",
    "elseif", "elsif", "empty", "end", "ensure", "enum", "eqv", "erase", "error", "event",
    "except", "exit", "export", "extends", "false", "finally", "for", "friend", "from",
    "function", "get", "global", "gosub", "goto", "if", "imp", "implements", "import", "in",
    "instanceof", "integer", "interface", "is", "lambda", "let", "lib", "like", "long", "loop",
    "lset", "me", "mod", "module", "new", "next", "nil", "none", "nonlocal", "not", "nothing",
    "null", "on", "option", "optional", "or", "package", "paramarray", "pass", "preserve",
    "print", "private", "property", "protected", "public", "puts", "raise", "raiseevent", "redim",
    "redo", "rem", "rescue", "resume", "retry", "return", "rset", "select", "self", "set",
    "single", "static", "step", "stop", "string", "sub", "super", "switch", "then", "this",
    "throw", "to", "true", "try", "type", "typeof", "undef", "undefined", "unless", "until",
    "var", "variant", "void", "wend", "when", "while", "with", "withevents", "xor", "yield"]

/-- Names that generated code refers to: loop helpers, imported modules and functions of the
target's library, in lower case. A variable of that name would hide them. -/
def generatedNames : List String :=
  ["console", "fill_index", "format", "int", "lbound", "len", "math", "rand", "random", "range",
    "rnd", "ubound", "worksheetfunction"]

/-- The lower-case form of a character, as far as it is an ASCII character. Outside ASCII only
the Kelvin sign has one; a word that holds any other character cannot equal a reserved word,
whatever its lower-case form is. -/
def lowerToAscii (c : Char) : Char :=
  if c == '\u212a' then 'k' else c.toLower

/-- Whether the word, trimmed, is reserved in any target. -/
def isReserved (word : String) : Bool :=
  let lower := String.ofList ((trimChars word.toList).map lowerToAscii)
  reservedWords.contains lower || generatedNames.contains lower

/-- Whether the text is a truth value, in any case. -/
def isTruthWord (text : String) : Bool :=
  lowerAscii text == "true" || lowerAscii text == "false"

/-- Refuses an operand that is a reserved word. The truth values pass in a slot that is
declared to hold one. -/
def checkReserved (value : String) (truthSlot : Bool) : Except ExprError Unit :=
  let word := trim value
  if truthSlot && isTruthWord word then .ok ()
  else if isReserved word then .error (.reservedWord word)
  else .ok ()

/-- The first reserved word in a dotted name. -/
def reservedSegment? (name : String) : Option String :=
  (stringPiecesAt '.' name).find? isReserved

/-- Refuses an expression that mentions a reserved word. Names are looked at in the order in
which they are written, each segment of a dotted name by itself. -/
def checkNames (e : Expr) : Except ExprError Unit :=
  match e.parts.findSome? fun part => part.ownName?.bind reservedSegment? with
  | some word => .error (.reservedWord word)
  | none => .ok ()

end BlockCode
