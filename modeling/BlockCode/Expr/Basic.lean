/- # Expressions

The tree of one operand: literals, names, array elements, calls and operators. Parentheses
that were written stay in the tree as groups, so that printing can show them again, and each
node keeps the span of bytes that it was read from.

A call of a built-in is a node of its own, because every target rewrites it. A call that
carries the user marker is never a built-in, whatever its name.
-/

import BlockCode.Token.Basic

namespace BlockCode

/-- The built-in functions. `random m n` draws an integer between `m` and `n`, both ends
included, and `binary` gives the digits of a number in base two. -/
inductive Builtin where
  | square
  | exponentiation
  | random
  | odd
  | binary
  deriving DecidableEq, Repr, Inhabited

namespace Builtin

/-- Every built-in. -/
def all : List Builtin :=
  [.square, .exponentiation, .random, .odd, .binary]

/-- The name a built-in is called by. -/
def name : Builtin → String
  | .square => "Square"
  | .exponentiation => "Exponentiation"
  | .random => "Random"
  | .odd => "Odd"
  | .binary => "Binary"

/-- How many arguments it takes. -/
def arity : Builtin → Nat
  | .exponentiation | .random => 2
  | .square | .odd | .binary => 1

/-- The built-in of a name. The case of the letters matters. -/
def ofName? (text : String) : Option Builtin :=
  all.find? fun b => b.name == text

end Builtin

/-- Operators in front of an operand. -/
inductive UnaryOp where
  | negate
  | not
  deriving DecidableEq, Repr, Inhabited

/-- Operators between two operands. Division comes in two kinds: `floorDivide` rounds the
quotient down. -/
inductive BinaryOp where
  | power
  | multiply
  | divide
  | floorDivide
  | modulo
  | add
  | subtract
  | equal
  | notEqual
  | lessThan
  | lessEqual
  | greaterThan
  | greaterEqual
  | and
  | or
  deriving DecidableEq, Repr, Inhabited

/-- Whether the operator compares. -/
def BinaryOp.isComparison : BinaryOp → Bool
  | .equal | .notEqual | .lessThan | .lessEqual | .greaterThan | .greaterEqual => true
  | _ => false

/-- An expression. -/
inductive Expr where
  | number (span : Span) (text : String)
  | string (span : Span) (contents : String)
  | bool (span : Span) (value : Bool)
  | name (span : Span) (name : String)
  | index (span : Span) (base : Expr) (position : Expr)
  | call (span : Span) (name : String) (args : List Expr) (userDefined : Bool)
  | builtin (span : Span) (function : Builtin) (args : List Expr)
  | unary (span : Span) (op : UnaryOp) (operand : Expr)
  | binary (span : Span) (op : BinaryOp) (left : Expr) (right : Expr)
  | group (span : Span) (inner : Expr)
  deriving Repr, Inhabited, BEq

namespace Expr

/-- The bytes the expression was read from. -/
def span : Expr → Span
  | number s _ | string s _ | bool s _ | name s _ | index s _ _ | call s _ _ _
  | builtin s _ _ | unary s _ _ | binary s _ _ _ | group s _ => s

mutual

/-- The expression and all its parts, each before its own parts, from left to right. -/
def parts : Expr → List Expr
  | e@(.number ..) | e@(.string ..) | e@(.bool ..) | e@(.name ..) => [e]
  | e@(.index _ base position) => e :: (base.parts ++ position.parts)
  | e@(.call _ _ args _) | e@(.builtin _ _ args) => e :: partsOfAll args
  | e@(.unary _ _ operand) => e :: operand.parts
  | e@(.binary _ _ left right) => e :: (left.parts ++ right.parts)
  | e@(.group _ inner) => e :: inner.parts

/-- The parts of several expressions, one after the other. -/
def partsOfAll : List Expr → List Expr
  | [] => []
  | e :: rest => e.parts ++ partsOfAll rest

end

/-- The name that the expression itself mentions: a variable, or the function of a call. -/
def ownName? : Expr → Option String
  | .name _ word | .call _ word _ _ => some word
  | _ => none

/-- Whether the expression stands as one unit wherever an operand may stand. Calls of
built-ins do not count, since their rewritten form may be an operation. -/
def isAtomic : Expr → Bool
  | .builtin .. | .unary .. | .binary .. => false
  | _ => true

/-- The variable that an assignment to the expression would write to: the expression is that
variable or an element of it. -/
def assignableName? : Expr → Option String
  | .name _ word => some word
  | .index _ base _ => base.assignableName?
  | _ => none

/-- Whether a call of the built-in occurs anywhere in the expression. -/
def callsBuiltin (b : Builtin) (e : Expr) : Bool :=
  e.parts.any fun
    | .builtin _ function _ => function == b
    | _ => false

end Expr

end BlockCode
