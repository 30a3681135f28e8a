/- # Meanings of expressions

What is left of an expression when the way it is written is taken away: the place of each node in
the text, the parentheses that were written, and the mark of a function that the user defined.
Three of the built-ins only abbreviate operators, and writing them out keeps the meaning.
-/

import BlockCode.Proofs.Expr.Relexing

namespace BlockCode

namespace Expr

mutual

/-- The expression without places, groups and user marks. -/
def bare : Expr → Expr
  | .number _ text => .number default text
  | .string _ contents => .string default contents
  | .bool _ value => .bool default value
  | .name _ word => .name default word
  | .index _ base position => .index default base.bare position.bare
  | .call _ word args _ => .call default word (bareAll args) false
  | .builtin _ function args => .builtin default function (bareAll args)
  | .unary _ op operand => .unary default op operand.bare
  | .binary _ op left right => .binary default op left.bare right.bare
  | .group _ inner => inner.bare

/-- The expressions without places, groups and user marks. -/
def bareAll : List Expr → List Expr
  | [] => []
  | e :: rest => e.bare :: bareAll rest

end

/-- A call of a built-in, or the operators that it abbreviates. -/
def writtenOut (span : Span) : Builtin → List Expr → Expr
  | .square, [x] => .binary span .multiply x x
  | .exponentiation, [base, exponent] => .binary span .power base exponent
  | .odd, [x] =>
    .binary span .notEqual (.binary span .modulo x (.number span "2")) (.number span "0")
  | function, args => .builtin span function args

mutual

/-- The expression with a product for each square, a power for each exponentiation and a test of
the remainder for each test for oddness. -/
def expanded : Expr → Expr
  | .number span text => .number span text
  | .string span contents => .string span contents
  | .bool span value => .bool span value
  | .name span word => .name span word
  | .index span base position => .index span base.expanded position.expanded
  | .call span word args userDefined => .call span word (expandedAll args) userDefined
  | .builtin span function args => writtenOut span function (expandedAll args)
  | .unary span op operand => .unary span op operand.expanded
  | .binary span op left right => .binary span op left.expanded right.expanded
  | .group span inner => .group span inner.expanded

/-- The expressions with these built-ins written out. -/
def expandedAll : List Expr → List Expr
  | [] => []
  | e :: rest => e.expanded :: expandedAll rest

end

/-- What the rules of the grammar and the lexer say about a node that was read. -/
def OwnLegible : Expr → Prop
  | .number _ text => IsLexeme .number text
  | .name _ word => IsLexeme .name word
  | .index _ base _ => base.TakesPositions
  | .call _ word _ userDefined =>
    IsLexeme .name word ∧ (userDefined = false → Builtin.ofName? word = none)
  | .builtin _ function args => function.Admits args
  | _ => True

theorem givenByRules_ownLegible :
    GivenByRules
      (fun token => token.kind = .name ∨ token.kind = .number → IsLexeme token.kind token.text)
      OwnLegible where
  number token htoken hkind := by
    rw [hkind] at htoken
    exact htoken (.inr rfl)
  string _ _ := trivial
  bool _ _ := trivial
  name token htoken hkind := by
    rw [hkind] at htoken
    exact htoken (.inl rfl)
  index _ _ _ hbase := hbase
  call _ token _ _ htoken hkind hplain := by
    rw [hkind] at htoken
    exact ⟨htoken (.inl rfl), hplain⟩
  builtin _ _ _ hadmits := hadmits
  unary _ _ _ := trivial
  binary _ _ _ _ := trivial
  group _ _ := trivial

/-- Every part of an expression that was read is legible. -/
theorem ownLegible_of_parseExpr {text : String} {e : Expr} (h : parseExpr text = .ok e) :
    ∀ part ∈ e.parts, part.OwnLegible := by
  obtain ⟨tokens, hlex, hspells⟩ := exists_spells_of_parseExpr h
  exact hspells.eachPart givenByRules_ownLegible fun token htoken hkind =>
    isLexeme_of_mem_lexFrom hlex htoken hkind

end Expr

end BlockCode
