/- # Dialects

What an expression looks like in a target: the spelling of its operators and literals, how
tightly its negation binds, and what stands for the operations that the target has no operator
or function of its own for.
-/

import BlockCode.Target.Basic
import BlockCode.Target.Printed

namespace BlockCode

/-- How a target writes division that rounds down. -/
inductive FloorDivision where
  /-- With an operator of its own. -/
  | operator (symbol : String)
  /-- As an ordinary quotient between two texts that round it. -/
  | rounded (before : String) (after : String)
  deriving DecidableEq, Repr

/-- The spelling of expressions in a target. -/
structure Dialect where
  power : String
  modulo : String
  equal : String
  notEqual : String
  and : String
  or : String
  /-- Negation of a condition, with the space behind it if it takes one. -/
  not : String
  /-- Whether that negation binds more loosely than comparisons. -/
  looseNot : Bool
  /-- Whether no operator may stand directly in front of a power. -/
  guardsPower : Bool
  trueWord : String
  falseWord : String
  floorDivision : FloorDivision
  openIndex : String
  closeIndex : String
  /-- A random integer between two bounds, both included. -/
  random : Printed → Printed → Printed
  /-- The binary digits of a number. -/
  binaryDigits : Printed → Printed
  /-- A character inside a string literal. -/
  quotedChar : Char → List Char

namespace Dialect

/-- A backslash in front of a backslash or a double quote. -/
def backslashQuoted (c : Char) : List Char :=
  if c == '\\' || c == '"' then ['\\', c] else [c]

/-- The number of integers between two bounds, both included. -/
def rangeSize (least greatest : Printed) : String :=
  greatest.atLeast .additive ++ " - " ++ least.tighterThan .additive ++ " + 1"

/-- A random integer, where `scaled` makes one below the number that its argument gives. -/
def shiftedRandom (scaled : String → String) (least greatest : Printed) : Printed :=
  ⟨scaled (rangeSize least greatest) ++ " + " ++ least.tighterThan .additive, .additive⟩

/-- Expressions in JavaScript. -/
def javaScript : Dialect where
  power := "**"
  modulo := "%"
  equal := "==="
  notEqual := "!=="
  and := "&&"
  or := "||"
  not := "!"
  looseNot := false
  guardsPower := true
  trueWord := "true"
  falseWord := "false"
  floorDivision := .rounded "Math.floor(" ")"
  openIndex := "["
  closeIndex := "]"
  random := shiftedRandom fun size => "Math.floor(Math.random() * (" ++ size ++ "))"
  binaryDigits x := .primary ("Number(" ++ x.text ++ ").toString(2)")
  quotedChar := backslashQuoted

/-- Expressions in Python. -/
def python : Dialect where
  power := "**"
  modulo := "%"
  equal := "=="
  notEqual := "!="
  and := "and"
  or := "or"
  not := "not "
  looseNot := true
  guardsPower := false
  trueWord := "True"
  falseWord := "False"
  floorDivision := .operator "//"
  openIndex := "["
  closeIndex := "]"
  random least greatest :=
    .primary ("random.randint(" ++ least.text ++ ", " ++ greatest.text ++ ")")
  binaryDigits x := .primary ("format(" ++ x.text ++ ", \"b\")")
  quotedChar := backslashQuoted

/-- Expressions in VBA. A double quote in a string is written twice. -/
def vba : Dialect where
  power := "^"
  modulo := "Mod"
  equal := "="
  notEqual := "<>"
  and := "And"
  or := "Or"
  not := "Not "
  looseNot := true
  guardsPower := false
  trueWord := "True"
  falseWord := "False"
  floorDivision := .operator "\\"
  openIndex := "("
  closeIndex := ")"
  random := shiftedRandom fun size => "Int(Rnd() * (" ++ size ++ "))"
  binaryDigits x := .primary ("WorksheetFunction.Dec2Bin(" ++ x.text ++ ")")
  quotedChar c := if c == '"' then ['"', '"'] else [c]

/-- Expressions in Ruby. A hash sign in a string could start an interpolation. -/
def ruby : Dialect where
  power := "**"
  modulo := "%"
  equal := "=="
  notEqual := "!="
  and := "&&"
  or := "||"
  not := "!"
  looseNot := false
  guardsPower := false
  trueWord := "true"
  falseWord := "false"
  floorDivision := .rounded "(" ").floor"
  openIndex := "["
  closeIndex := "]"
  random least greatest := .primary ("rand(" ++ least.text ++ ".." ++ greatest.text ++ ")")
  binaryDigits x := .primary (x.atom ++ ".to_s(2)")
  quotedChar c := if c == '#' then ['\\', c] else backslashQuoted c

/-- A string literal. -/
def stringLiteral (d : Dialect) (contents : String) : String :=
  String.ofList ('"' :: contents.toList.flatMap d.quotedChar ++ ['"'])

/-- The spelling of an operator between two operands. -/
def symbol (d : Dialect) : BinaryOp → String
  | .power => d.power
  | .multiply => "*"
  | .divide => "/"
  | .floorDivide =>
    match d.floorDivision with
    | .operator symbol => symbol
    | .rounded .. => "/"
  | .modulo => d.modulo
  | .add => "+"
  | .subtract => "-"
  | .equal => d.equal
  | .notEqual => d.notEqual
  | .lessThan => "<"
  | .lessEqual => "<="
  | .greaterThan => ">"
  | .greaterEqual => ">="
  | .and => d.and
  | .or => d.or

end Dialect

/-- The dialect of a target. -/
def Target.dialect : Target → Dialect
  | .javaScript => .javaScript
  | .python => .python
  | .vba => .vba
  | .ruby => .ruby

end BlockCode
