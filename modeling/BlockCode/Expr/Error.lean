/- # Errors of one expression

Everything that can be wrong with the text of one operand: it does not read as tokens or as
an expression, its parentheses do not match, a negation has nothing to negate, a built-in is
called with the wrong arguments, or a name is a reserved word.
-/

import BlockCode.Expr.Basic
import BlockCode.Number.Shortest

namespace BlockCode

/-- What a reader would have accepted where it stopped. -/
inductive Expected where
  | value
  | valueBeforeParen
  | token (kind : TokenKind)
  | nothingMore
  deriving DecidableEq, Repr

/-- How messages speak of it. -/
def Expected.label : Expected → String
  | .value => "a value"
  | .valueBeforeParen => "a value before `)`"
  | .token kind => "`" ++ kind.label ++ "`"
  | .nothingMore => "end of expression"

/-- The ways in which the parentheses of a statement can be wrong. -/
inductive BracketError where
  | missingRight
  | missingLeft
  | order
  | emptyPair
  deriving DecidableEq, Repr

/-- The wording of the error. -/
def BracketError.message : BracketError → String
  | .missingRight => "unbalanced parentheses: missing right parenthesis"
  | .missingLeft => "unbalanced parentheses: missing left parenthesis"
  | .order => "parentheses out of order: `)` appears before `(`"
  | .emptyPair => "empty parentheses"

/-- Why the text of an operand is refused. -/
inductive ExprError where
  | lex (error : LexError)
  | unclosedString (offset : Nat)
  | empty
  | unexpected (found : String) (expected : Expected) (offset : Nat)
  | unexpectedEnd (expected : Expected)
  | bracket (error : BracketError)
  | builtinArity (function : Builtin) (found : Nat)
  | randomRange (least : Binary64) (greatest : Binary64)
  | danglingNegation
  | reservedWord (word : String)
  deriving DecidableEq, Repr

namespace ExprError

/-- The wording of the error. -/
def message : ExprError → String
  | .lex e => e.message
  | .unclosedString _ => "unterminated string literal"
  | .empty => "missing value"
  | .unexpected found expected _ =>
    "unexpected `" ++ found ++ "`, expected " ++ expected.label
  | .unexpectedEnd expected => "unexpected end of expression, expected " ++ expected.label
  | .bracket e => e.message
  | .builtinArity function found =>
    function.name ++ " takes " ++ toString function.arity ++ " argument(s), found "
      ++ toString found
  | .randomRange least greatest =>
    "Random: the first argument must be smaller than the second ("
      ++ least.toText ++ " > " ++ greatest.toText ++ ")"
  | .danglingNegation => "negation marker without an operand"
  | .reservedWord word => "`" ++ word ++ "` is a reserved word"

end ExprError

end BlockCode
