/- # The grammar of expressions

The layered grammar that expressions follow, as a relation between phrases and the tokens that
spell them. A phrase names a nonterminal together with the tree it stands for, so a derivation
says both which tokens belong together and what they mean. Every rule joins the tokens of its
parts in the order in which they are written; nothing is skipped and nothing is used twice.

The rules mention no binding strength of operators and no bound. That the reader, which climbs
by binding strength, follows them is a theorem about the reader.
-/

import BlockCode.Expr.Literal
import BlockCode.Expr.Precedence
import BlockCode.Expr.Parser

namespace BlockCode

/-- What the arguments of a built-in have to satisfy: there are as many as it takes, and the
bounds of a random range, where both are literals, are in order. -/
def Builtin.Admits (function : Builtin) (args : List Expr) : Prop :=
  args.length = function.arity ∧
    ∀ least greatest m n, function = .random → args = [least, greatest] →
      least.literalNumber? = some m → greatest.literalNumber? = some n → n.lt m = false

namespace Precedence

theorem level_injective {a b : Precedence} (h : a.level = b.level) : a = b := by
  cases a <;> cases b <;> first | rfl | cases h

theorem level_le (a : Precedence) : a.level ≤ 8 := by
  cases a <;> simp [level]

/-- The positions of the levels leave no gap. -/
theorem exists_level_eq : ∀ {n : Nat}, n ≤ 8 → ∃ a : Precedence, a.level = n
  | 0, _ => ⟨.lowest, rfl⟩
  | 1, _ => ⟨.or, rfl⟩
  | 2, _ => ⟨.and, rfl⟩
  | 3, _ => ⟨.comparison, rfl⟩
  | 4, _ => ⟨.additive, rfl⟩
  | 5, _ => ⟨.multiplicative, rfl⟩
  | 6, _ => ⟨.unary, rfl⟩
  | 7, _ => ⟨.power, rfl⟩
  | 8, _ => ⟨.primary, rfl⟩

/-- The nonterminal of the operands of a level whose operators group from the left. -/
def operands? : Precedence → Option Precedence
  | .or => some .and
  | .and => some .comparison
  | .comparison => some .additive
  | .additive => some .multiplicative
  | .multiplicative => some .unary
  | _ => none

/-- The operator that a token stands for between two operands of the level. -/
def operator? : Precedence → TokenKind → Option BinaryOp
  | .or, .or => some .or
  | .and, .and => some .and
  | .comparison, .equal => some .equal
  | .comparison, .notEqual => some .notEqual
  | .comparison, .less => some .lessThan
  | .comparison, .lessEqual => some .lessEqual
  | .comparison, .greater => some .greaterThan
  | .comparison, .greaterEqual => some .greaterEqual
  | .additive, .plus => some .add
  | .additive, .minus => some .subtract
  | .multiplicative, .star => some .multiply
  | .multiplicative, .slash => some .divide
  | .multiplicative, .floorSlash => some .floorDivide
  | .multiplicative, .percent => some .modulo
  | _, _ => none

end Precedence

/-- A nonterminal of the grammar with the tree that it stands for. -/
inductive Phrase where
  /-- An expression of a level, from disjunctions to primary expressions. -/
  | expr (level : Precedence) (e : Expr)
  /-- Operators of a level with their right operands; they turn the tree `left` into `e`. -/
  | operators (level : Precedence) (left : Expr) (e : Expr)
  /-- Positions in square brackets; they turn the tree `base` into `e`. -/
  | positions (base : Expr) (e : Expr)
  /-- Arguments in parentheses, the last of which ends at `stop`. -/
  | arguments (args : List Expr) (stop : Nat)
  /-- One or more expressions between commas. -/
  | items (args : List Expr)

/-- The tokens derive from the phrase. -/
inductive Derives : Phrase → List Token → Prop
  | chain {level operand : Precedence} {first e : Expr} {ws vs : List Token}
      (hlevel : level.operands? = some operand)
      (hfirst : Derives (.expr operand first) ws)
      (hrest : Derives (.operators level first e) vs) :
      Derives (.expr level e) (ws ++ vs)
  | noOperator {level : Precedence} {e : Expr} : Derives (.operators level e e) []
  | operator {level operand : Precedence} {left right e : Expr} {token : Token} {op : BinaryOp}
      {ws vs : List Token}
      (hlevel : level.operands? = some operand)
      (htoken : level.operator? token.kind = some op)
      (hright : Derives (.expr operand right) ws)
      (hrest : Derives
        (.operators level (.binary (left.span.merge right.span) op left right) e) vs) :
      Derives (.operators level left e) (token :: (ws ++ vs))
  | negate {token : Token} {operand : Expr} {ws : List Token} (htoken : token.kind = .minus)
      (hoperand : Derives (.expr .unary operand) ws) :
      Derives (.expr .unary (.unary (token.span.merge operand.span) .negate operand))
        (token :: ws)
  | not {token : Token} {operand : Expr} {ws : List Token} (htoken : token.kind = .not)
      (hoperand : Derives (.expr .unary operand) ws) :
      Derives (.expr .unary (.unary (token.span.merge operand.span) .not operand))
        (token :: ws)
  | unsigned {e : Expr} {ws : List Token} (h : Derives (.expr .power e) ws) :
      Derives (.expr .unary e) ws
  | raised {token : Token} {base exponent : Expr} {ws vs : List Token}
      (hbase : Derives (.expr .primary base) ws) (htoken : token.kind = .power)
      (hexponent : Derives (.expr .unary exponent) vs) :
      Derives (.expr .power (.binary (base.span.merge exponent.span) .power base exponent))
        (ws ++ token :: vs)
  | unraised {e : Expr} {ws : List Token} (h : Derives (.expr .primary e) ws) :
      Derives (.expr .power e) ws
  | number {token : Token} (htoken : token.kind = .number) :
      Derives (.expr .primary (.number token.span token.text)) [token]
  | string {token : Token} (htoken : token.kind = .string) :
      Derives (.expr .primary (.string token.span (literalContents token.text))) [token]
  | trueWord {token : Token} (htoken : token.kind = .trueWord) :
      Derives (.expr .primary (.bool token.span true)) [token]
  | falseWord {token : Token} (htoken : token.kind = .falseWord) :
      Derives (.expr .primary (.bool token.span false)) [token]
  | group {opening closing : Token} {inner : Expr} {ws : List Token}
      (hopening : opening.kind = .leftParen) (hinner : Derives (.expr .or inner) ws)
      (hclosing : closing.kind = .rightParen) :
      Derives (.expr .primary (.group ⟨opening.span.start, closing.span.stop⟩ inner))
        (opening :: (ws ++ [closing]))
  | userCall {marker name : Token} {args : List Expr} {stop : Nat} {ws : List Token}
      (hmarker : marker.kind = .userMarker) (hname : name.kind = .name)
      (hargs : Derives (.arguments args stop) ws) :
      Derives (.expr .primary (.call ⟨marker.span.start, stop⟩ name.text args true))
        (marker :: name :: ws)
  | name {token : Token} {e : Expr} {ws : List Token} (htoken : token.kind = .name)
      (hrest : Derives (.positions (.name token.span token.text) e) ws) :
      Derives (.expr .primary e) (token :: ws)
  | call {token : Token} {args : List Expr} {stop : Nat} {e : Expr} {ws vs : List Token}
      (htoken : token.kind = .name) (hplain : Builtin.ofName? token.text = none)
      (hargs : Derives (.arguments args stop) ws)
      (hrest : Derives (.positions (.call ⟨token.span.start, stop⟩ token.text args false) e) vs) :
      Derives (.expr .primary e) (token :: (ws ++ vs))
  | builtin {token : Token} {function : Builtin} {args : List Expr} {stop : Nat} {e : Expr}
      {ws vs : List Token}
      (htoken : token.kind = .name) (hbuiltin : Builtin.ofName? token.text = some function)
      (hargs : Derives (.arguments args stop) ws) (hadmits : function.Admits args)
      (hrest : Derives (.positions (.builtin ⟨token.span.start, stop⟩ function args) e) vs) :
      Derives (.expr .primary e) (token :: (ws ++ vs))
  | noPosition {e : Expr} : Derives (.positions e e) []
  | position {opening closing : Token} {base index e : Expr} {ws vs : List Token}
      (hopening : opening.kind = .leftBracket) (hindex : Derives (.expr .or index) ws)
      (hclosing : closing.kind = .rightBracket)
      (hrest : Derives
        (.positions (.index ⟨base.span.start, closing.span.stop⟩ base index) e) vs) :
      Derives (.positions base e) (opening :: (ws ++ closing :: vs))
  | noArgument {opening closing : Token} (hopening : opening.kind = .leftParen)
      (hclosing : closing.kind = .rightParen) :
      Derives (.arguments [] closing.span.stop) [opening, closing]
  | arguments {opening closing : Token} {args : List Expr} {ws : List Token}
      (hopening : opening.kind = .leftParen) (hargs : Derives (.items args) ws)
      (hclosing : closing.kind = .rightParen) :
      Derives (.arguments args closing.span.stop) (opening :: (ws ++ [closing]))
  | lastItem {e : Expr} {ws : List Token} (he : Derives (.expr .or e) ws) :
      Derives (.items [e]) ws
  | nextItem {e : Expr} {comma : Token} {args : List Expr} {ws vs : List Token}
      (he : Derives (.expr .or e) ws) (hcomma : comma.kind = .comma)
      (hrest : Derives (.items args) vs) :
      Derives (.items (e :: args)) (ws ++ comma :: vs)

/-- The tokens spell the expression: they derive from the loosest level of the grammar. -/
def Spells (tokens : List Token) (e : Expr) : Prop :=
  Derives (.expr .or e) tokens

namespace Derives

/-- One more operator at the end of a chain takes everything before it as its left operand. -/
theorem operators_snoc {level operand : Precedence} {left mid right : Expr} {token : Token}
    {op : BinaryOp} {ws vs : List Token}
    (hchain : Derives (.operators level left mid) ws)
    (hlevel : level.operands? = some operand)
    (htoken : level.operator? token.kind = some op)
    (hright : Derives (.expr operand right) vs) :
    Derives (.operators level left (.binary (mid.span.merge right.span) op mid right))
      (ws ++ token :: vs) := by
  generalize hphrase : Phrase.operators level left mid = phrase at hchain
  induction hchain generalizing left with
  | noOperator =>
      cases hphrase
      simpa using Derives.operator hlevel htoken hright .noOperator
  | operator hlevel' htoken' hright' hrest' _ ih =>
      cases hphrase
      simpa using Derives.operator hlevel' htoken' hright' (ih rfl)
  | _ => cases hphrase

/-- An expression of a level goes on with an operator of the level. -/
theorem chain_snoc {level operand : Precedence} {left right : Expr} {token : Token}
    {op : BinaryOp} {ws vs : List Token}
    (hleft : Derives (.expr level left) ws) (hlevel : level.operands? = some operand)
    (htoken : level.operator? token.kind = some op)
    (hright : Derives (.expr operand right) vs) :
    Derives (.expr level (.binary (left.span.merge right.span) op left right))
      (ws ++ token :: vs) := by
  cases hleft with
  | chain hlevel' hfirst hrest =>
      rw [List.append_assoc]
      exact .chain hlevel' hfirst (operators_snoc hrest hlevel htoken hright)
  | _ => cases hlevel

/-- The grammar is layered: each level above the disjunction belongs to the next looser one. -/
theorem loosen {level looser : Precedence} {e : Expr} {ws : List Token}
    (h : Derives (.expr level e) ws) (hlevel : level.level = looser.level + 1)
    (hlooser : looser ≠ .lowest) : Derives (.expr looser e) ws := by
  have chain (operands : looser.operands? = some level) : Derives (.expr looser e) ws := by
    simpa using Derives.chain operands h .noOperator
  cases looser with
  | lowest => exact absurd rfl hlooser
  | unary =>
      obtain rfl : level = .power := Precedence.level_injective hlevel
      exact .unsigned h
  | power =>
      obtain rfl : level = .primary := Precedence.level_injective hlevel
      exact .unraised h
  | primary => exact absurd (hlevel ▸ level.level_le) (by decide)
  | or => exact chain (by rw [show level = .and from Precedence.level_injective hlevel]; rfl)
  | and =>
      exact chain (by rw [show level = .comparison from Precedence.level_injective hlevel]; rfl)
  | comparison =>
      exact chain (by rw [show level = .additive from Precedence.level_injective hlevel]; rfl)
  | additive =>
      exact chain
        (by rw [show level = .multiplicative from Precedence.level_injective hlevel]; rfl)
  | multiplicative =>
      exact chain (by rw [show level = .unary from Precedence.level_injective hlevel]; rfl)

/-- An expression of a tighter level is one of any looser level. -/
theorem of_le {level looser : Precedence} {e : Expr} {ws : List Token}
    (h : Derives (.expr level e) ws) (hle : looser ≤ level) (hlooser : looser ≠ .lowest) :
    Derives (.expr looser e) ws := by
  obtain ⟨n, hn⟩ := Nat.le.dest (show looser.level ≤ level.level from hle)
  induction n generalizing looser with
  | zero =>
      obtain rfl : looser = level := Precedence.level_injective hn
      exact h
  | succ n ih =>
      have hbound := level.level_le
      obtain ⟨next, hnext⟩ := Precedence.exists_level_eq (n := looser.level + 1) (by omega)
      have hle' : next ≤ level := by
        change next.level ≤ level.level
        omega
      have hnext' : next ≠ .lowest := by
        rintro rfl
        cases hnext
      exact loosen (ih hle' hnext' (by omega)) hnext hlooser

end Derives

end BlockCode
