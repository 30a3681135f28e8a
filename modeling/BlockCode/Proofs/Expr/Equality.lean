/- # Equality of expressions

Expressions are compared node by node, with their places and texts. The arguments of calls are
lists of expressions, so the comparison of expressions and the comparison of lists go hand in hand.
With it, what a fixed text is read as can be decided.
-/

import BlockCode.Expr.Basic
import Mathlib.Control.Monad.Basic

namespace BlockCode.Expr

mutual

/-- Whether the expressions are the same. -/
def isSame : Expr → Expr → Bool
  | .number s text, .number s' text' => s == s' && text == text'
  | .string s contents, .string s' contents' => s == s' && contents == contents'
  | .bool s value, .bool s' value' => s == s' && value == value'
  | .name s word, .name s' word' => s == s' && word == word'
  | .index s base position, .index s' base' position' =>
    s == s' && base.isSame base' && position.isSame position'
  | .call s word args user, .call s' word' args' user' =>
    s == s' && word == word' && areSame args args' && user == user'
  | .builtin s function args, .builtin s' function' args' =>
    s == s' && function == function' && areSame args args'
  | .unary s op operand, .unary s' op' operand' =>
    s == s' && op == op' && operand.isSame operand'
  | .binary s op left right, .binary s' op' left' right' =>
    s == s' && op == op' && left.isSame left' && right.isSame right'
  | .group s inner, .group s' inner' => s == s' && inner.isSame inner'
  | _, _ => false

/-- Whether the lists hold the same expressions. -/
def areSame : List Expr → List Expr → Bool
  | [], [] => true
  | e :: rest, e' :: rest' => e.isSame e' && areSame rest rest'
  | _, _ => false

end

mutual

theorem isSame_iff : ∀ e e' : Expr, e.isSame e' = true ↔ e = e'
  | .number .., e' | .string .., e' | .bool .., e' | .name .., e' => by
      cases e' <;> simp [isSame]
  | .index _ base position, e' => by
      cases e' <;> simp [isSame, isSame_iff base, isSame_iff position, and_assoc]
  | .call _ _ args _, e' | .builtin _ _ args, e' => by
      cases e' <;> simp [isSame, areSame_iff args, and_assoc]
  | .unary _ _ operand, e' => by
      cases e' <;> simp [isSame, isSame_iff operand, and_assoc]
  | .binary _ _ left right, e' => by
      cases e' <;> simp [isSame, isSame_iff left, isSame_iff right, and_assoc]
  | .group _ inner, e' => by
      cases e' <;> simp [isSame, isSame_iff inner]

theorem areSame_iff : ∀ args args' : List Expr, areSame args args' = true ↔ args = args'
  | [], args' => by cases args' <;> simp [areSame]
  | e :: rest, args' => by cases args' <;> simp [areSame, isSame_iff e, areSame_iff rest]

end

instance : DecidableEq Expr :=
  fun e e' => decidable_of_iff _ (isSame_iff e e')

end BlockCode.Expr
