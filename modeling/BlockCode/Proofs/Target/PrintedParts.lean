/- # Parts in the printed text

The text of an expression holds the texts of all its parts. Parentheses come around some of them,
and a built-in may be printed with an argument twice, but no rewriting leaves a part out.

The lines of a statement need not hold the texts of all its expressions: a number in the head of a
counting loop may be computed with, and the step of one is left out. In Python this leaves out no
expression with a call, so what is called in a program is called in its code.
-/

import BlockCode.Proofs.Expr.Meaning
import BlockCode.Proofs.Target.Layout
import BlockCode.Proofs.Target.Steps

namespace BlockCode

/-- The other text stands somewhere in the text. -/
def Contains (text part : String) : Prop :=
  part.toList <:+: text.toList

namespace Contains

variable {text front behind part : String} {x : Printed} {level : Precedence}

theorem refl (text : String) : Contains text text :=
  List.infix_refl _

theorem trans (h : Contains text front) (h' : Contains front part) : Contains text part :=
  List.IsInfix.trans h' h

theorem left (h : Contains front part) : Contains (front ++ behind) part := by
  rw [Contains, String.toList_append]
  exact List.IsInfix.trans h (List.prefix_append _ _).isInfix

theorem right (h : Contains behind part) : Contains (front ++ behind) part := by
  rw [Contains, String.toList_append]
  exact List.IsInfix.trans h (List.suffix_append _ _).isInfix

theorem parenthesized (h : Contains x.text part) : Contains x.parenthesized part :=
  h.right.left

theorem atLeast (h : Contains x.text part) : Contains (x.atLeast level) part := by
  rw [Printed.atLeast]
  split
  · exact h
  · exact h.parenthesized

theorem tighterThan (h : Contains x.text part) : Contains (x.tighterThan level) part := by
  rw [Printed.tighterThan]
  split
  · exact h
  · exact h.parenthesized

theorem commaList {texts : List String} (hmem : text ∈ texts) (h : Contains text part) :
    Contains (commaList texts) part := by
  rw [BlockCode.commaList]
  induction texts with
  | nil => cases hmem
  | cons first rest ih =>
      cases rest with
      | nil =>
          rw [List.mem_singleton.mp hmem] at h
          rwa [String.intercalate_singleton]
      | cons next rest =>
          rw [String.intercalate_cons_cons]
          rcases List.mem_cons.mp hmem with rfl | hmem
          · exact h.left.left
          · exact (ih hmem).right

end Contains

/-! ## Expressions -/

section Print

variable {target : Target} {spellings? : Option Spellings}

theorem contains_random (least greatest : Printed) :
    Contains (target.dialect.random least greatest).text least.text ∧
      Contains (target.dialect.random least greatest).text greatest.text := by
  have hleast := Contains.refl least.text
  have hgreatest := Contains.refl greatest.text
  cases target with
  | javaScript | vba =>
      exact ⟨hleast.tighterThan.right, hgreatest.atLeast.left.left.left.right.left.left.left⟩
  | python | ruby => exact ⟨hleast.right.left.left.left, hgreatest.right.left⟩

theorem contains_binaryDigits (x : Printed) :
    Contains (target.dialect.binaryDigits x).text x.text := by
  have hx := Contains.refl x.text
  cases target with
  | javaScript | python | vba => exact hx.right.left
  | ruby => exact hx.atLeast.left

/-- No argument of a built-in is left out. -/
theorem contains_builtin (function : Builtin) (args : List Printed) :
    ∀ x ∈ args, Contains ((target.printer spellings?).builtin function args).text x.text := by
  unfold ExprPrinter.builtin
  split
  · next x =>
    rw [List.forall_mem_singleton]
    exact (Contains.refl x.text).atLeast.right.left
  · next base exponent =>
    rw [List.forall_mem_cons, List.forall_mem_singleton]
    exact ⟨(Contains.refl base.text).atLeast.right.left.left.left.left.left,
      (Contains.refl exponent.text).atLeast.right.left⟩
  · next least greatest =>
    rw [List.forall_mem_cons, List.forall_mem_singleton]
    exact contains_random least greatest
  · next x =>
    rw [List.forall_mem_singleton]
    exact (Contains.refl x.text).atLeast.left.left.left.left.left
  · next x =>
    rw [List.forall_mem_singleton]
    exact contains_binaryDigits x
  · intro x hx
    exact ((Contains.refl x.text).commaList (List.mem_map_of_mem hx)).right.left

theorem contains_binary (op : BinaryOp) (left right : Printed) :
    Contains ((target.printer spellings?).binary op left right).text left.text ∧
      Contains ((target.printer spellings?).binary op left right).text right.text := by
  have hleft : Contains (if op == .power || op.isComparison then left.tighterThan op.precedence
      else left.atLeast op.precedence) left.text := by
    split
    · exact (Contains.refl left.text).tighterThan
    · exact (Contains.refl left.text).atLeast
  have hright : Contains (if op == .power then right.atLeast op.precedence
      else right.tighterThan op.precedence) right.text := by
    split
    · exact (Contains.refl right.text).atLeast
    · exact (Contains.refl right.text).tighterThan
  unfold ExprPrinter.binary
  dsimp only
  split
  · exact ⟨hleft.left.left.left.left.right.left, hright.right.right.left⟩
  · exact ⟨hleft.left.left.left.left, hright.right⟩

theorem contains_unary (op : UnaryOp) (operand : Printed) :
    Contains ((target.printer spellings?).unary op operand).text operand.text := by
  have hoperand := Contains.refl operand.text
  unfold ExprPrinter.unary
  cases op with
  | negate => exact hoperand.tighterThan.right
  | not =>
      dsimp only
      split
      · exact hoperand.tighterThan.right
      · exact hoperand.atLeast.right

mutual

/-- The text of an expression holds the texts of its parts. -/
theorem contains_print : ∀ e : Expr, ∀ part ∈ e.parts,
    Contains ((target.printer spellings?).text e) ((target.printer spellings?).text part)
  | .number .. | .string .. | .bool .. | .name .. => by
      rw [Expr.parts, List.forall_mem_singleton]
      exact .refl _
  | .index _ base position => by
      rw [Expr.parts, List.forall_mem_cons, List.forall_mem_append]
      exact ⟨.refl _, fun part hpart => (contains_print base part hpart).atLeast.left.left.left,
        fun part hpart => (contains_print position part hpart).right.left⟩
  | .call _ word args _ => by
      rw [Expr.parts, List.forall_mem_cons]
      refine ⟨.refl _, fun part hpart => ?_⟩
      obtain ⟨x, hx, hcontains⟩ := contains_printAll args part hpart
      exact (hcontains.commaList (List.mem_map_of_mem hx)).right.left
  | .builtin _ function args => by
      rw [Expr.parts, List.forall_mem_cons]
      refine ⟨.refl _, fun part hpart => ?_⟩
      obtain ⟨x, hx, hcontains⟩ := contains_printAll args part hpart
      exact (contains_builtin function _ x hx).trans hcontains
  | .unary _ op operand => by
      rw [Expr.parts, List.forall_mem_cons]
      exact ⟨.refl _, fun part hpart =>
        (contains_unary op _).trans (contains_print operand part hpart)⟩
  | .binary _ op left right => by
      rw [Expr.parts, List.forall_mem_cons, List.forall_mem_append]
      exact ⟨.refl _,
        fun part hpart => (contains_binary op _ _).1.trans (contains_print left part hpart),
        fun part hpart => (contains_binary op _ _).2.trans (contains_print right part hpart)⟩
  | .group _ inner => by
      rw [Expr.parts, List.forall_mem_cons]
      exact ⟨.refl _, fun part hpart => (contains_print inner part hpart).parenthesized⟩

theorem contains_printAll : ∀ args : List Expr, ∀ part ∈ Expr.partsOfAll args,
    ∃ x ∈ (target.printer spellings?).printAll args,
      Contains x.text ((target.printer spellings?).text part)
  | [] => by simp [Expr.partsOfAll]
  | e :: args => by
      rw [Expr.partsOfAll, List.forall_mem_append]
      refine ⟨fun part hpart => ⟨_, .head _, contains_print e part hpart⟩, fun part hpart => ?_⟩
      obtain ⟨x, hx, hcontains⟩ := contains_printAll args part hpart
      exact ⟨x, .tail _ hx, hcontains⟩

end

end Print

/-! ## Lines in Python -/

/-- A text with a parenthesis reads as no integer. -/
theorem readInt64?_of_paren {text : String} (h : '(' ∈ text.toList) : readInt64? text = none := by
  have hnone {digits : List Char} (hmem : '(' ∈ digits) : readDigits? digits = none := by
    cases hread : readDigits? digits with
    | none => rfl
    | some n =>
        have hdigit := List.all_eq_true.mp (readDigits?_eq_some hread).1 _ hmem
        exact absurd hdigit (by decide)
  rw [readInt64?]
  split
  · next digits htext =>
    rw [htext] at h
    rw [hnone ((List.mem_cons.mp h).resolve_left (by decide))]
    rfl
  · next digits htext =>
    rw [htext] at h
    rw [hnone ((List.mem_cons.mp h).resolve_left (by decide))]
    rfl
  · rw [hnone h]
    rfl

/-- A call is no literal. -/
theorem Expr.literalInteger?_of_builtin {e : Expr} {span : Span} {function : Builtin}
    {args : List Expr} (h : .builtin span function args ∈ e.parts) : e.literalInteger? = none := by
  induction e using Expr.literalInteger?.induct with
  | case1 => cases List.mem_singleton.mp h
  | case2 _ inner ih =>
      rcases List.mem_cons.mp h with heq | hpart
      · cases heq
      · rw [Expr.literalInteger?, ih hpart]
  | case3 _ operand ih =>
      rcases List.mem_cons.mp h with heq | hpart
      · cases heq
      · rw [Expr.literalInteger?, ih hpart]
        rfl
  | case4 e hnumber hgroup hnegate => rw [Expr.literalInteger?] <;> assumption

namespace Python

/-- How a random number is drawn. -/
def randomCall : String :=
  "random.randint("

section

variable {spellings? : Option Spellings} {direction : Direction}
  {counter first last step e : Expr}

/-- Where a random number is drawn, the text of the expression shows the call. -/
theorem contains_randomCall (hlegible : ∀ part ∈ e.parts, part.OwnLegible)
    (h : e.callsBuiltin .random = true) :
    Contains ((Target.python.printer spellings?).text e) randomCall := by
  obtain ⟨span, args, hpart⟩ := Expr.callsBuiltin_iff.mp h
  refine (contains_print e _ hpart).trans ?_
  obtain ⟨hlength, -⟩ : Builtin.Admits .random args := hlegible _ hpart
  obtain ⟨least, greatest, rfl⟩ := List.length_eq_two.mp hlength
  rw [ExprPrinter.text, ExprPrinter.print]
  exact (Contains.refl randomCall).left.left.left.left

/-- The head of a loop over integers holds the texts of its expressions, but for an end that is
computed and a step that is computed with or left out. -/
theorem contains_rangeHeader {text : String}
    (h : rangeHeader (Target.python.printer spellings?) direction counter first last step =
      .ok text) (he : e ∈ [counter, first, last, step]) (hliteral : e.literalInteger? = none)
    (hparen : '(' ∈ ((Target.python.printer spellings?).text e).toList) :
    Contains text ((Target.python.printer spellings?).text e) := by
  have hself := Contains.refl ((Target.python.printer spellings?).text e)
  obtain ⟨stop, hstop, h⟩ := bind_eq_ok_iff.mp h
  have hend (hlast : e = last) : Contains stop ((Target.python.printer spellings?).text e) := by
    subst hlast
    unfold rangeStop at hstop
    rw [hliteral] at hstop
    cases hstop
    exact hself.atLeast.left.left.left
  have hbound (hmem : e = first ∨ e = last) :
      Contains ((Target.python.printer spellings?).text first ++ ", " ++ stop)
        ((Target.python.printer spellings?).text e) := by
    rcases hmem with rfl | rfl
    · exact hself.left.left
    · exact (hend rfl).right
  have hstep (heq : e = step) : ((Target.python.printer spellings?).print step).isOne = false := by
    rw [Printed.isOne, beq_eq_false_iff_ne]
    intro hone
    rw [heq, ExprPrinter.text, hone] at hparen
    exact absurd hparen (by decide)
  simp only [List.mem_cons, List.not_mem_nil, or_false] at he
  cases direction with
  | up =>
      dsimp only at h
      split at h
      · next hone =>
        cases h
        rcases he with rfl | hfirst | hlast | heq
        · exact hself.right.left.left.left
        · exact (hbound (.inl hfirst)).right.left
        · exact (hbound (.inr hlast)).right.left
        · rw [hstep heq] at hone
          cases hone
      · cases h
        rcases he with rfl | hfirst | hlast | rfl
        · exact hself.right.left.left.left
        · exact (hbound (.inl hfirst)).left.left.right.left
        · exact (hbound (.inr hlast)).left.left.right.left
        · exact hself.right.right.left
  | down =>
      obtain ⟨negative, hnegative, ⟨⟩⟩ := bind_eq_ok_iff.mp h
      rcases he with rfl | hfirst | hlast | rfl
      · exact hself.right.left.left.left
      · exact (hbound (.inl hfirst)).left.left.right.left
      · exact (hbound (.inr hlast)).left.left.right.left
      · rw [Printed.negated, ← ExprPrinter.text, readInt64?_of_paren hparen] at hnegative
        cases hnegative
        exact hself.tighterThan.right.right.right.left

/-- The line that advances a loop over fractions holds its step. -/
theorem exists_footer_contains {own : List CodeLine}
    (h : lines (Target.python.printer spellings?) (.endCount (.advance direction counter step)) =
      .ok own) :
    ∃ line ∈ own, Contains line.text ((Target.python.printer spellings?).text step) := by
  cases direction
  all_goals
    cases h
    exact ⟨_, .head _, (Contains.refl _).right⟩

/-- Every expression that an action is about is printed whole in one of its lines, if it is no
number. Only the step of a loop over fractions is not: it is printed where the loop ends. -/
theorem exists_line_contains {action : Action} {own : List CodeLine}
    (h : lines (Target.python.printer spellings?) action = .ok own)
    (hkind : action.kind ≠ .endFor) (he : e ∈ action.exprs)
    (hliteral : e.literalInteger? = none)
    (hparen : '(' ∈ ((Target.python.printer spellings?).text e).toList) :
    (∃ line ∈ own, Contains line.text ((Target.python.printer spellings?).text e)) ∨
      ∃ direction counter first last, action = .count direction counter first last e ∧
        countsInFractions [first, last, e] = true := by
  have hself := Contains.refl ((Target.python.printer spellings?).text e)
  have hlist {items : List Expr} (hmem : e ∈ items) :
      Contains ((Target.python.printer spellings?).texts items)
        ((Target.python.printer spellings?).text e) :=
    hself.commaList (List.mem_map_of_mem hmem)
  cases action with
  | count direction counter first last step =>
      rw [lines] at h
      split at h
      · next hfractions =>
        cases h
        simp only [Action.exprs, List.mem_cons, List.not_mem_nil, or_false] at he
        rcases he with rfl | rfl | rfl | rfl
        · exact .inl ⟨_, .head _, hself.left.left⟩
        · exact .inl ⟨_, .head _, hself.right⟩
        · exact .inl ⟨_, .tail _ (.head _), hself.tighterThan.right.left⟩
        · exact .inr ⟨direction, counter, first, last, rfl, hfractions⟩
      · obtain ⟨text, htext, ⟨⟩⟩ := bind_eq_ok_iff.mp h
        exact .inl ⟨_, .head _, contains_rangeHeader htext he hliteral hparen⟩
  | assign constant target value =>
      cases h
      simp only [Action.exprs, List.mem_cons, List.not_mem_nil, or_false] at he
      rcases he with rfl | rfl
      · exact .inl ⟨_, .head _, hself.left.left⟩
      · exact .inl ⟨_, .head _, hself.right⟩
  | change direction target amount =>
      simp only [Action.exprs, List.mem_cons, List.not_mem_nil, or_false] at he
      cases direction
      all_goals
        cases h
        rcases he with rfl | rfl
        · exact .inl ⟨_, .head _, hself.left.left⟩
        · exact .inl ⟨_, .head _, hself.right⟩
  | fillArray target value =>
      cases h
      simp only [Action.exprs, List.mem_cons, List.not_mem_nil, or_false] at he
      rcases he with rfl | rfl
      · exact .inl ⟨_, .head _, hself.right.left⟩
      · exact .inl ⟨_, .head _, hself.right.left.left.left⟩
  | initializeArray target items =>
      cases h
      rcases List.mem_cons.mp he with rfl | hitem
      · exact .inl ⟨_, .head _, hself.left.left.left⟩
      · exact .inl ⟨_, .head _, (hlist hitem).right.left⟩
  | output items | defineFunction name items | callFunction name items =>
      cases h
      exact .inl ⟨_, .head _, (hlist he).right.left⟩
  | ifThen condition | elseIf condition | whileLoop condition =>
      cases h
      obtain rfl := List.mem_singleton.mp he
      exact .inl ⟨_, .head _, hself.right.left⟩
  | endDoWhile condition =>
      cases h
      obtain rfl := List.mem_singleton.mp he
      exact .inl ⟨_, .head _, hself.atLeast.right.left⟩
  | endCount loopFooter => exact absurd rfl hkind
  | otherwise | endIf | endWhile | doWhile | endFunction | leaveLoop | region | endRegion =>
      cases he

end

end Python

end BlockCode
