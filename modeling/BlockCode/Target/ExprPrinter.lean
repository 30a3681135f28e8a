/- # Printing expressions

An expression is printed with the operators, literals and rewrites of a dialect. Parentheses
that the user wrote are kept. Others are added only where a rewritten operation binds more
loosely than what was read, or where a target would read the operators differently.
-/

import BlockCode.Names.Identifier
import BlockCode.Target.Dialect

namespace BlockCode

/-- What printing an expression needs to know: the dialect, and the spellings of names that
cannot stay as they are. Without any spellings every name stays as it is. -/
structure ExprPrinter where
  dialect : Dialect
  spellings? : Option Spellings := none

namespace ExprPrinter

variable (p : ExprPrinter)

/-- A name as the target spells it. -/
def name (word : String) : String :=
  match p.spellings? with
  | none => word
  | some spellings => spellings.rename word

/-- Without spellings a name stays as it is. -/
theorem name_eq_self (h : p.spellings? = none) (word : String) : p.name word = word := by
  rw [name, h]

/-- What holds of a name, and of the name as it is spelled, holds of what is printed for it. -/
theorem name_of_rename {P : String → Prop} {word : String} (hword : P word)
    (hrename : ∀ spellings ∈ p.spellings?, P (spellings.rename word)) : P (p.name word) := by
  rw [name]
  split
  · exact hword
  · next spellings heq => exact hrename spellings heq

/-- An operator in front of an operand. -/
def unary (op : UnaryOp) (operand : Printed) : Printed :=
  let bound := if p.dialect.guardsPower then Precedence.power else .unary
  match op with
  | .negate => ⟨"-" ++ operand.tighterThan bound, .unary⟩
  | .not =>
    let text :=
      if p.dialect.guardsPower then operand.tighterThan bound else operand.atLeast bound
    ⟨p.dialect.not ++ text, if p.dialect.looseNot then .and else .unary⟩

/-- An operator between two operands. Comparisons are not chained, because a target may read
a chain as a test of a range. -/
def binary (op : BinaryOp) (left right : Printed) : Printed :=
  let level := op.precedence
  let leftText := if op == .power || op.isComparison then left.tighterThan level
    else left.atLeast level
  let rightText := if op == .power then right.atLeast level else right.tighterThan level
  let text := leftText ++ " " ++ p.dialect.symbol op ++ " " ++ rightText
  match op, p.dialect.floorDivision with
  | .floorDivide, .rounded before after => .primary (before ++ text ++ after)
  | _, _ => ⟨text, level⟩

/-- A call of a built-in. A call with the wrong number of arguments, which no reader gives,
stays a plain call. -/
def builtin (function : Builtin) (args : List Printed) : Printed :=
  match function, args with
  | .square, [x] => .primary ("(" ++ x.atom ++ " * " ++ x.atom ++ ")")
  | .exponentiation, [base, exponent] =>
    .primary ("(" ++ base.atom ++ " " ++ p.dialect.power ++ " " ++ exponent.atom ++ ")")
  | .random, [least, greatest] => p.dialect.random least greatest
  | .odd, [x] =>
    ⟨x.atLeast .multiplicative ++ " " ++ p.dialect.modulo ++ " 2 " ++ p.dialect.notEqual ++ " 0",
      .comparison⟩
  | .binary, [x] => p.dialect.binaryDigits x
  | function, args =>
    .primary (function.name ++ "(" ++ commaList (args.map Printed.text) ++ ")")

mutual

/-- The text of an expression and its binding strength. -/
def print : Expr → Printed
  | .number _ text => .primary text
  | .string _ contents => .primary (p.dialect.stringLiteral contents)
  | .bool _ value => .primary (if value then p.dialect.trueWord else p.dialect.falseWord)
  | .name _ word => .primary (p.name word)
  | .index _ base position =>
    .primary ((print base).atom ++ p.dialect.openIndex ++ (print position).text
      ++ p.dialect.closeIndex)
  | .call _ word args _ =>
    .primary (p.name word ++ "(" ++ commaList ((printAll args).map Printed.text) ++ ")")
  | .builtin _ function args => p.builtin function (printAll args)
  | .unary _ op operand => p.unary op (print operand)
  | .binary _ op left right => p.binary op (print left) (print right)
  | .group _ inner => .primary (print inner).parenthesized

/-- The texts of several expressions. -/
def printAll : List Expr → List Printed
  | [] => []
  | e :: rest => print e :: printAll rest

end

/-- The text of an expression. -/
def text (e : Expr) : String :=
  (p.print e).text

/-- The texts of several expressions with commas between them. -/
def texts (exprs : List Expr) : String :=
  commaList (exprs.map p.text)

end ExprPrinter

/-- The printer of a target. -/
def Target.printer (target : Target) (spellings? : Option Spellings) : ExprPrinter :=
  ⟨target.dialect, spellings?⟩

/-- The text of a slot as the target writes it. -/
def Target.normalize (target : Target) (fragment : String) : Except ExprError String :=
  (prepare fragment).map (target.printer none).text

end BlockCode
