/- # Binding strength

How tightly operators bind, from disjunction to the literals and calls that no operator can
pull apart. All operators group from the left, except that the right operand of a power may
start with a minus sign, a negation or another power.
-/

import BlockCode.Expr.Basic

namespace BlockCode

/-- The levels of binding, loosest first. -/
inductive Precedence where
  | lowest
  | or
  | and
  | comparison
  | additive
  | multiplicative
  | unary
  | power
  | primary
  deriving DecidableEq, Repr, Inhabited

namespace Precedence

/-- The position of the level, counted from the loosest. -/
def level : Precedence → Nat
  | .lowest => 0
  | .or => 1
  | .and => 2
  | .comparison => 3
  | .additive => 4
  | .multiplicative => 5
  | .unary => 6
  | .power => 7
  | .primary => 8

instance : LE Precedence := ⟨fun a b => a.level ≤ b.level⟩

instance : LT Precedence := ⟨fun a b => a.level < b.level⟩

instance (a b : Precedence) : Decidable (a ≤ b) :=
  inferInstanceAs (Decidable (a.level ≤ b.level))

instance (a b : Precedence) : Decidable (a < b) :=
  inferInstanceAs (Decidable (a.level < b.level))

end Precedence

namespace BinaryOp

/-- The level on which the operator binds. -/
def precedence : BinaryOp → Precedence
  | .or => .or
  | .and => .and
  | .equal | .notEqual | .lessThan | .lessEqual | .greaterThan | .greaterEqual => .comparison
  | .add | .subtract => .additive
  | .multiply | .divide | .floorDivide | .modulo => .multiplicative
  | .power => .power

/-- The level that operators inside the right operand must exceed. It is the operator's own
level, so that a chain groups from the left; for a power it is one lower, so that a chain of
powers groups from the right. -/
def rightBound : BinaryOp → Precedence
  | .power => .unary
  | op => op.precedence

end BinaryOp

/-- The operator that a token stands for between two operands. -/
def TokenKind.binaryOp? : TokenKind → Option BinaryOp
  | .plus => some .add
  | .minus => some .subtract
  | .star => some .multiply
  | .power => some .power
  | .slash => some .divide
  | .floorSlash => some .floorDivide
  | .percent => some .modulo
  | .equal => some .equal
  | .notEqual => some .notEqual
  | .less => some .lessThan
  | .lessEqual => some .lessEqual
  | .greater => some .greaterThan
  | .greaterEqual => some .greaterEqual
  | .and => some .and
  | .or => some .or
  | _ => none

end BlockCode
