/- # Parts of expressions

What every part of an expression that was read has in common. The rules of the grammar build a
tree node by node, and each rule says something about the node it builds: where its texts come
from, that a called name is no built-in, that a built-in has its arguments, that only names,
calls and elements take positions. A property of nodes that all rules give is a property of
every part.
-/

import BlockCode.Proofs.Expr.Completeness

namespace BlockCode

namespace Expr

/-- Positions in square brackets may stand behind the expression. -/
def TakesPositions : Expr → Prop
  | .name .. | .index .. | .builtin .. => True
  | .call _ _ _ userDefined => userDefined = false
  | _ => False

theorem mem_parts_self (e : Expr) : e ∈ e.parts := by
  cases e <;> simp [parts]

theorem forall_mem_partsOfAll {P : Expr → Prop} {args : List Expr} :
    (∀ part ∈ partsOfAll args, P part) ↔ ∀ e ∈ args, ∀ part ∈ e.parts, P part := by
  induction args with
  | nil => simp [partsOfAll]
  | cons e args ih => rw [partsOfAll, List.forall_mem_append, ih, List.forall_mem_cons]

/-- A call of a built-in among the parts is found. -/
theorem callsBuiltin_of_mem_parts {e : Expr} {span : Span} {function : Builtin}
    {args : List Expr} (h : .builtin span function args ∈ e.parts) :
    e.callsBuiltin function = true :=
  List.any_eq_true.mpr ⟨_, h, beq_self_eq_true function⟩

/-- A built-in that is called is called by a part of the expression. -/
theorem callsBuiltin_iff {e : Expr} {function : Builtin} :
    e.callsBuiltin function = true ↔ ∃ span args, .builtin span function args ∈ e.parts := by
  refine ⟨fun h => ?_, fun h => ?_⟩
  · obtain ⟨part, hpart, hcall⟩ := List.any_eq_true.mp h
    cases part with
    | builtin span other args =>
        obtain rfl := eq_of_beq hcall
        exact ⟨span, args, hpart⟩
    | _ => cases hcall
  · obtain ⟨span, args, hpart⟩ := h
    exact callsBuiltin_of_mem_parts hpart

/-- The rules of the grammar give the property to each node that they build from tokens
satisfying `T`. -/
structure GivenByRules (T : Token → Prop) (P : Expr → Prop) : Prop where
  number : ∀ token, T token → token.kind = .number → P (.number token.span token.text)
  string : ∀ span contents, P (.string span contents)
  bool : ∀ span value, P (.bool span value)
  name : ∀ token, T token → token.kind = .name → P (.name token.span token.text)
  index : ∀ span base position, base.TakesPositions → P (.index span base position)
  call : ∀ span token args userDefined, T token → token.kind = .name →
    (userDefined = false → Builtin.ofName? token.text = none) →
    P (.call span token.text args userDefined)
  builtin : ∀ span function args, function.Admits args → P (.builtin span function args)
  unary : ∀ span op operand, P (.unary span op operand)
  binary : ∀ span op left right, P (.binary span op left right)
  group : ∀ span inner, P (.group span inner)

end Expr

/-- The property holds of every part of the tree of the phrase, given that it holds of every part
of the tree that the phrase goes on with. -/
def Phrase.EachPart (P : Expr → Prop) : Phrase → Prop
  | .expr _ e => ∀ part ∈ e.parts, P part
  | .operators _ left e => (∀ part ∈ left.parts, P part) → ∀ part ∈ e.parts, P part
  | .positions base e =>
    base.TakesPositions → (∀ part ∈ base.parts, P part) → ∀ part ∈ e.parts, P part
  | .arguments args _ => ∀ e ∈ args, ∀ part ∈ e.parts, P part
  | .items args => ∀ e ∈ args, ∀ part ∈ e.parts, P part

/-- What the rules give to each node holds of every part of the tree. -/
theorem Derives.eachPart {T : Token → Prop} {P : Expr → Prop} (hP : Expr.GivenByRules T P)
    {phrase : Phrase} {ws : List Token} (h : Derives phrase ws) (htokens : ∀ token ∈ ws, T token) :
    phrase.EachPart P := by
  induction h with
  | chain _ _ _ ihfirst ihrest =>
      rw [List.forall_mem_append] at htokens
      exact ihrest htokens.2 (ihfirst htokens.1)
  | noOperator => exact id
  | operator _ _ _ _ ihright ihrest =>
      rw [List.forall_mem_cons, List.forall_mem_append] at htokens
      intro hleft
      apply ihrest htokens.2.2
      rw [Expr.parts, List.forall_mem_cons, List.forall_mem_append]
      exact ⟨hP.binary _ _ _ _, hleft, ihright htokens.2.1⟩
  | negate _ _ ih | not _ _ ih =>
      rw [List.forall_mem_cons] at htokens
      rw [Phrase.EachPart, Expr.parts, List.forall_mem_cons]
      exact ⟨hP.unary _ _ _, ih htokens.2⟩
  | unsigned _ ih | unraised _ ih => exact ih htokens
  | raised _ _ _ ihbase ihexponent =>
      rw [List.forall_mem_append, List.forall_mem_cons] at htokens
      rw [Phrase.EachPart, Expr.parts, List.forall_mem_cons, List.forall_mem_append]
      exact ⟨hP.binary _ _ _ _, ihbase htokens.1, ihexponent htokens.2.2⟩
  | number htoken =>
      rw [Phrase.EachPart, Expr.parts, List.forall_mem_singleton]
      exact hP.number _ (htokens _ (.head _)) htoken
  | string htoken =>
      rw [Phrase.EachPart, Expr.parts, List.forall_mem_singleton]
      exact hP.string _ _
  | trueWord htoken | falseWord htoken =>
      rw [Phrase.EachPart, Expr.parts, List.forall_mem_singleton]
      exact hP.bool _ _
  | group _ _ _ ih =>
      rw [List.forall_mem_cons, List.forall_mem_append] at htokens
      rw [Phrase.EachPart, Expr.parts, List.forall_mem_cons]
      exact ⟨hP.group _ _, ih htokens.2.1⟩
  | userCall _ hname _ ih =>
      rw [List.forall_mem_cons, List.forall_mem_cons] at htokens
      rw [Phrase.EachPart, Expr.parts, List.forall_mem_cons, Expr.forall_mem_partsOfAll]
      exact ⟨hP.call _ _ _ _ htokens.2.1 hname (by simp), ih htokens.2.2⟩
  | name htoken _ ih =>
      rw [List.forall_mem_cons] at htokens
      apply ih htokens.2 trivial
      rw [Expr.parts, List.forall_mem_singleton]
      exact hP.name _ htokens.1 htoken
  | call htoken hplain _ _ ihargs ihrest =>
      rw [List.forall_mem_cons, List.forall_mem_append] at htokens
      apply ihrest htokens.2.2 rfl
      rw [Expr.parts, List.forall_mem_cons, Expr.forall_mem_partsOfAll]
      exact ⟨hP.call _ _ _ _ htokens.1 htoken fun _ => hplain, ihargs htokens.2.1⟩
  | builtin _ _ _ hadmits _ ihargs ihrest =>
      rw [List.forall_mem_cons, List.forall_mem_append] at htokens
      apply ihrest htokens.2.2 trivial
      rw [Expr.parts, List.forall_mem_cons, Expr.forall_mem_partsOfAll]
      exact ⟨hP.builtin _ _ _ hadmits, ihargs htokens.2.1⟩
  | noPosition => exact fun _ hbase => hbase
  | position _ _ _ _ ihindex ihrest =>
      rw [List.forall_mem_cons, List.forall_mem_append, List.forall_mem_cons] at htokens
      intro htakes hbase
      apply ihrest htokens.2.2.2 trivial
      rw [Expr.parts, List.forall_mem_cons, List.forall_mem_append]
      exact ⟨hP.index _ _ _ htakes, hbase, ihindex htokens.2.1⟩
  | noArgument => simp [Phrase.EachPart]
  | arguments _ _ _ ih =>
      rw [List.forall_mem_cons, List.forall_mem_append] at htokens
      exact ih htokens.2.1
  | lastItem _ ih =>
      rw [Phrase.EachPart, List.forall_mem_singleton]
      exact ih htokens
  | nextItem _ _ _ ihe ihrest =>
      rw [List.forall_mem_append, List.forall_mem_cons] at htokens
      rw [Phrase.EachPart, List.forall_mem_cons]
      exact ⟨ihe htokens.1, ihrest htokens.2.2⟩

end BlockCode
