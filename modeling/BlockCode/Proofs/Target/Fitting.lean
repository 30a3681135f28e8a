/- # Fitting operands

Where the printer puts parentheses. Each place for an operand has the levels of expressions that
fit it, and what does not fit is written as a group. What was fitted once fits as it is.
-/

import BlockCode.Target.ExprPrinter

namespace BlockCode

/-- The printed text as it is where it fits, and in parentheses elsewhere. -/
def Printed.fitted (x : Printed) (fits : Precedence → Bool) : Printed :=
  if fits x.precedence then x else .primary x.parenthesized

theorem Printed.text_fitted (x : Printed) (fits : Precedence → Bool) :
    (x.fitted fits).text = if fits x.precedence then x.text else x.parenthesized := by
  rw [fitted]
  split <;> rfl

theorem Printed.fits_fitted {x : Printed} {fits : Precedence → Bool} (h : fits .primary = true) :
    fits (x.fitted fits).precedence = true := by
  rw [fitted]
  split
  · assumption
  · exact h

/-- What fits is fitted already. -/
theorem Printed.fitted_eq {x : Printed} {fits : Precedence → Bool}
    (h : fits x.precedence = true) : x.fitted fits = x := by
  rw [fitted, if_pos h]

namespace BinaryOp

/-- The levels whose expressions need no parentheses on the left of the operator. -/
def fitsLeft (op : BinaryOp) (level : Precedence) : Bool :=
  if op == .power || op.isComparison then op.precedence < level else op.precedence ≤ level

/-- The levels whose expressions need no parentheses on the right of the operator. -/
def fitsRight (op : BinaryOp) (level : Precedence) : Bool :=
  if op == .power then op.precedence ≤ level else op.precedence < level

theorem fitsLeft_primary (op : BinaryOp) : op.fitsLeft .primary = true := by
  cases op <;> decide

theorem fitsRight_primary (op : BinaryOp) : op.fitsRight .primary = true := by
  cases op <;> decide

theorem le_of_fitsLeft {op : BinaryOp} {level : Precedence} (h : op.fitsLeft level = true) :
    op.precedence ≤ level := by
  revert h
  cases op <;> cases level <;> decide

theorem lt_of_fitsRight {op : BinaryOp} {level : Precedence} (h : op.fitsRight level = true)
    (hop : op ≠ .power) : op.precedence < level := by
  revert h hop
  cases op <;> cases level <;> decide

end BinaryOp

namespace ExprPrinter

variable {p : ExprPrinter}

/-- An operation is written with the operands as they fit. -/
theorem binary_eq {op : BinaryOp}
    (hop : op = .floorDivide → ∃ symbol, p.dialect.floorDivision = .operator symbol)
    (left right : Printed) :
    p.binary op left right = ⟨(left.fitted op.fitsLeft).text ++ " " ++ p.dialect.symbol op ++ " " ++
      (right.fitted op.fitsRight).text, op.precedence⟩ := by
  cases op with
  | floorDivide =>
      obtain ⟨symbol, hsymbol⟩ := hop rfl
      simp [binary, hsymbol, Printed.text_fitted, BinaryOp.fitsLeft, BinaryOp.fitsRight,
        Printed.atLeast, Printed.tighterThan, BinaryOp.isComparison]
  | _ =>
      simp [binary, Printed.text_fitted, BinaryOp.fitsLeft, BinaryOp.fitsRight,
        Printed.atLeast, Printed.tighterThan, BinaryOp.isComparison]

/-- The levels of operands that need no parentheses behind the operator. -/
def fitsUnary (p : ExprPrinter) (op : UnaryOp) (level : Precedence) : Bool :=
  if p.dialect.guardsPower then .power < level
  else match op with
    | .negate => .unary < level
    | .not => .unary ≤ level

/-- What is written in front of the operand. -/
def sign (p : ExprPrinter) : UnaryOp → String
  | .negate => "-"
  | .not => p.dialect.not

/-- The level on which the operator binds in the target. -/
def unaryLevel (p : ExprPrinter) : UnaryOp → Precedence
  | .negate => .unary
  | .not => if p.dialect.looseNot then .and else .unary

/-- An operator in front is written with the operand as it fits. -/
theorem unary_eq (op : UnaryOp) (operand : Printed) :
    p.unary op operand =
      ⟨p.sign op ++ (operand.fitted (p.fitsUnary op)).text, p.unaryLevel op⟩ := by
  rw [Printed.text_fitted]
  cases hguards : p.dialect.guardsPower <;> cases op <;>
    simp [unary, hguards, fitsUnary, sign, unaryLevel, Printed.tighterThan, Printed.atLeast]

theorem fitsUnary_primary (op : UnaryOp) : p.fitsUnary op .primary = true := by
  cases hguards : p.dialect.guardsPower <;> cases op <;> rw [fitsUnary, hguards] <;> decide

theorem unary_le_of_fitsUnary {op : UnaryOp} {level : Precedence}
    (h : p.fitsUnary op level = true) : .unary ≤ level := by
  revert h
  cases hguards : p.dialect.guardsPower <;> cases op <;> rw [fitsUnary, hguards] <;>
    cases level <;> decide

theorem unaryLevel_le (op : UnaryOp) : p.unaryLevel op ≤ .unary ∧ p.unaryLevel op ≠ .lowest := by
  cases op with
  | negate =>
      rw [unaryLevel]
      decide
  | not =>
      rw [unaryLevel]
      cases p.dialect.looseNot <;> decide

end ExprPrinter

end BlockCode
