/- # Reading expressions

Precedence climbing over a list of tokens. Each reader gives back the tokens it left, with
the fact that they are fewer than it was given; that is all that termination needs, and no
reader can succeed without taking a token.

A call of a built-in is checked as soon as its arguments are read: their number, and for a
random range with literal bounds also their order.
-/

import BlockCode.Expr.Error
import BlockCode.Expr.Literal
import BlockCode.Expr.Precedence
import BlockCode.Token.Lexer

namespace BlockCode

/-- The outcome of a reader that was given `n` tokens: a value and fewer tokens. -/
abbrev Parsed (α : Type) (n : Nat) :=
  Except ExprError { p : α × List Token // p.2.length < n }

/-- The contents of a string literal: the quotes go, and so does each backslash in front of a
character. -/
def unescape : List Char → List Char
  | [] => []
  | c :: rest =>
    if c == '\\' then
      match rest with
      | [] => []
      | d :: rest => d :: unescape rest
    else c :: unescape rest

/-- What a string literal stands for. -/
def literalContents (text : String) : String :=
  String.ofList (unescape text.toList.tail.dropLast)

/-- The token of the given kind at the front. -/
def expectToken (kind : TokenKind) : (tokens : List Token) → Parsed Token tokens.length
  | [] => .error (.unexpectedEnd (.token kind))
  | token :: rest =>
    if token.kind = kind then .ok ⟨(token, rest), by simp⟩
    else .error (.unexpected token.text (.token kind) token.span.start)

/-- Judges the arguments of a built-in. -/
def checkBuiltin (function : Builtin) (args : List Expr) : Except ExprError Unit :=
  if args.length ≠ function.arity then .error (.builtinArity function args.length)
  else
    match function, args with
    | .random, [least, greatest] =>
      match least.literalNumber?, greatest.literalNumber? with
      | some m, some n => if n.lt m then .error (.randomRange m n) else .ok ()
      | _, _ => .ok ()
    | _, _ => .ok ()

mutual

/-- An expression all of whose operators outside parentheses bind tighter than `bound`. -/
def parseAbove (bound : Precedence) (tokens : List Token) : Parsed Expr tokens.length := do
  let ⟨(left, rest), h⟩ ← parseOperand tokens
  let ⟨(e, rest₁), h₁⟩ ← parseOperators bound left rest
  return ⟨(e, rest₁), by simp at h h₁ ⊢; omega⟩
termination_by 3 * tokens.length + 2
decreasing_by all_goals simp_all <;> omega

/-- Goes on after an operand, as long as operators that bind tighter than `bound` follow. -/
def parseOperators (bound : Precedence) (left : Expr) (tokens : List Token) :
    Parsed Expr (tokens.length + 1) :=
  match tokens with
  | [] => return ⟨(left, []), by simp⟩
  | token :: rest =>
    match token.kind.binaryOp? with
    | none => return ⟨(left, token :: rest), by simp⟩
    | some op =>
      if op.precedence ≤ bound then return ⟨(left, token :: rest), by simp⟩
      else do
        let ⟨(right, rest₁), h⟩ ← parseAbove op.rightBound rest
        let ⟨(e, rest₂), h₁⟩ ←
          parseOperators bound (.binary (left.span.merge right.span) op left right) rest₁
        return ⟨(e, rest₂), by simp at h h₁ ⊢; omega⟩
termination_by 3 * tokens.length
decreasing_by all_goals (simp_all; omega)

/-- An operand: a literal, a name with what belongs to it, a group, or an operator in front
of another operand. -/
def parseOperand (tokens : List Token) : Parsed Expr tokens.length :=
  match tokens with
  | [] => throw (.unexpectedEnd .value)
  | token :: rest =>
    match token.kind with
    | .number => return ⟨(.number token.span token.text, rest), by simp⟩
    | .string => return ⟨(.string token.span (literalContents token.text), rest), by simp⟩
    | .unclosedString => throw (.unclosedString token.span.start)
    | .trueWord => return ⟨(.bool token.span true, rest), by simp⟩
    | .falseWord => return ⟨(.bool token.span false, rest), by simp⟩
    | .name => do
      let ⟨(e, rest₁), h⟩ ← parseNamed token.text token.span rest
      return ⟨(e, rest₁), by simp at h ⊢; omega⟩
    | .userMarker => do
      let ⟨(name, rest₁), h⟩ ← expectToken .name rest
      let ⟨((args, stop), rest₂), h₁⟩ ← parseArguments rest₁
      return ⟨(.call ⟨token.span.start, stop⟩ name.text args true, rest₂), by
        simp at h h₁ ⊢; omega⟩
    | .leftParen => do
      let ⟨(inner, rest₁), h⟩ ← parseAbove .lowest rest
      let ⟨(close, rest₂), h₁⟩ ← expectToken .rightParen rest₁
      return ⟨(.group ⟨token.span.start, close.span.stop⟩ inner, rest₂), by
        simp at h h₁ ⊢; omega⟩
    | .minus => do
      let ⟨(operand, rest₁), h⟩ ← parseAbove .unary rest
      return ⟨(.unary (token.span.merge operand.span) .negate operand, rest₁), by
        simp at h ⊢; omega⟩
    | .not => do
      let ⟨(operand, rest₁), h⟩ ← parseAbove .unary rest
      return ⟨(.unary (token.span.merge operand.span) .not operand, rest₁), by
        simp at h ⊢; omega⟩
    | .rightParen => throw (.unexpected token.text .valueBeforeParen token.span.start)
    | _ => throw (.unexpected token.text .value token.span.start)
termination_by 3 * tokens.length + 1
decreasing_by all_goals (simp_all; omega)

/-- What belongs to a name: the arguments of a call, then any number of positions. -/
def parseNamed (name : String) (span : Span) (tokens : List Token) :
    Parsed Expr (tokens.length + 1) :=
  match tokens with
  | [] => return ⟨(.name span name, []), by simp⟩
  | token :: rest =>
    if token.kind = .leftParen then do
      let ⟨((args, stop), rest₁), h⟩ ← parseArguments (token :: rest)
      let callSpan : Span := ⟨span.start, stop⟩
      match Builtin.ofName? name with
      | some function => do
        checkBuiltin function args
        let ⟨(e, rest₂), h₁⟩ ← parsePositions (.builtin callSpan function args) rest₁
        return ⟨(e, rest₂), by simp at h h₁ ⊢; omega⟩
      | none => do
        let ⟨(e, rest₂), h₁⟩ ← parsePositions (.call callSpan name args false) rest₁
        return ⟨(e, rest₂), by simp at h h₁ ⊢; omega⟩
    else parsePositions (.name span name) (token :: rest)
termination_by 3 * tokens.length + 2
decreasing_by all_goals simp_all <;> omega

/-- Positions in square brackets, each choosing an element of what stands before it. -/
def parsePositions (base : Expr) (tokens : List Token) : Parsed Expr (tokens.length + 1) :=
  match tokens with
  | [] => return ⟨(base, []), by simp⟩
  | token :: rest =>
    if token.kind = .leftBracket then do
      let ⟨(position, rest₁), h⟩ ← parseAbove .lowest rest
      let ⟨(close, rest₂), h₁⟩ ← expectToken .rightBracket rest₁
      let ⟨(e, rest₃), h₂⟩ ←
        parsePositions (.index ⟨base.span.start, close.span.stop⟩ base position) rest₂
      return ⟨(e, rest₃), by simp at h h₁ h₂ ⊢; omega⟩
    else return ⟨(base, token :: rest), by simp⟩
termination_by 3 * tokens.length
decreasing_by all_goals (simp_all; omega)

/-- The arguments of a call, with the offset at which their closing parenthesis ends. -/
def parseArguments (tokens : List Token) : Parsed (List Expr × Nat) tokens.length := do
  let ⟨(_, rest), h⟩ ← expectToken .leftParen tokens
  match rest, h with
  | token :: rest₁, h =>
    if token.kind = .rightParen then
      return ⟨(([], token.span.stop), rest₁), by simp at h ⊢; omega⟩
    else do
      let ⟨(args, rest₂), h₁⟩ ← parseItems (token :: rest₁)
      let ⟨(close, rest₃), h₂⟩ ← expectToken .rightParen rest₂
      return ⟨((args, close.span.stop), rest₃), by simp at h h₁ h₂ ⊢; omega⟩
  | [], _ => throw (.unexpectedEnd .value)
termination_by 3 * tokens.length + 1
decreasing_by all_goals (simp_all; omega)

/-- One or more expressions between commas. -/
def parseItems (tokens : List Token) : Parsed (List Expr) tokens.length := do
  let ⟨(first, rest), h⟩ ← parseAbove .lowest tokens
  match rest, h with
  | token :: rest₁, h =>
    if token.kind = .comma then do
      let ⟨(items, rest₂), h₁⟩ ← parseItems rest₁
      return ⟨(first :: items, rest₂), by simp at h h₁ ⊢; omega⟩
    else return ⟨([first], token :: rest₁), by simpa using h⟩
  | [], h => return ⟨([first], []), by simpa using h⟩
termination_by 3 * tokens.length + 3
decreasing_by all_goals simp_all <;> omega

end

/-- Refuses tokens that are left over. -/
def expectEnd : List Token → Except ExprError Unit
  | [] => .ok ()
  | token :: _ => .error (.unexpected token.text .nothingMore token.span.start)

/-- The expression that the tokens spell. -/
def parseTokens (tokens : List Token) : Except ExprError Expr := do
  if tokens.isEmpty then throw .empty
  let ⟨(e, rest), _⟩ ← parseAbove .lowest tokens
  expectEnd rest
  return e

/-- The expressions that the tokens spell between commas. No tokens are an empty list. -/
def parseListTokens (tokens : List Token) : Except ExprError (List Expr) := do
  if tokens.isEmpty then return []
  let ⟨(items, rest), _⟩ ← parseItems tokens
  expectEnd rest
  return items

/-- The tokens of a text, where a character that starts no token is an error of the
expression. -/
def lexExpr (text : String) : Except ExprError (List Token) :=
  (lex text).mapError .lex

/-- Reads a text as one expression. -/
def parseExpr (text : String) : Except ExprError Expr :=
  lexExpr text >>= parseTokens

/-- Reads a text as a list of expressions. -/
def parseExprList (text : String) : Except ExprError (List Expr) :=
  lexExpr text >>= parseListTokens

end BlockCode
