/- # How printed lines end

Python shows with a colon at the end of a line that a block follows, and Ruby shows with a bar there
that a counting loop does. No other line may end in these marks. What an expression is printed as
never does: neither mark stands in a number or in a name, and any other text of an expression ends
in a quote, a parenthesis, a bracket or a word of the language.
-/

import BlockCode.Proofs.Expr.Meaning
import BlockCode.Proofs.Names.Segments

namespace BlockCode

/-- The last character of the text is the mark. -/
def EndsIn (mark : Char) (text : String) : Prop :=
  text.toList.getLast? = some mark

instance (mark : Char) (text : String) : Decidable (EndsIn mark text) :=
  inferInstanceAs (Decidable (_ = _))

/-- The last character of the text is a colon. -/
def EndsInColon (text : String) : Prop :=
  EndsIn ':' text

instance (text : String) : Decidable (EndsInColon text) :=
  inferInstanceAs (Decidable (EndsIn _ _))

/-- Whether the text of an expression may end in the character. -/
def isExprEnd (c : Char) : Bool :=
  isNamePart c || ['.', ')', ']', '"', ' ', '-', '!'].contains c

/-- The text ends in a character that the text of an expression may end in. -/
def EndsAsExpr (text : String) : Prop :=
  text.toList.getLast?.any isExprEnd = true

instance (text : String) : Decidable (EndsAsExpr text) :=
  inferInstanceAs (Decidable (_ = _))

section

variable {mark : Char} {text text' : String}

theorem not_endsIn_of_notMem (h : mark ∉ text.toList) : ¬ EndsIn mark text :=
  fun hends => h (List.mem_of_getLast? hends)

theorem not_endsIn_append (h : ¬ EndsIn mark text) (h' : ¬ EndsIn mark text') :
    ¬ EndsIn mark (text ++ text') := by
  rw [EndsIn, String.toList_append, List.getLast?_append]
  rw [EndsIn] at h h'
  cases hlast : text'.toList.getLast? with
  | none => exact h
  | some c =>
      rw [hlast] at h'
      exact h'

theorem endsIn_append (h : EndsIn mark text') : EndsIn mark (text ++ text') := by
  rw [EndsIn, String.toList_append, List.getLast?_append, h]
  rfl

/-- Where the mark ends no expression, it ends no text that ends as an expression does. What stands
in front does not matter. -/
theorem EndsAsExpr.not_endsIn_append (h : EndsAsExpr text') (hmark : isExprEnd mark = false) :
    ¬ EndsIn mark (text ++ text') := by
  rw [EndsAsExpr, Option.any_eq_true] at h
  obtain ⟨c, hlast, hc⟩ := h
  rw [EndsIn, String.toList_append, List.getLast?_append, hlast]
  rintro ⟨⟩
  rw [hmark] at hc
  cases hc

theorem EndsAsExpr.not_endsIn (h : EndsAsExpr text) (hmark : isExprEnd mark = false) :
    ¬ EndsIn mark text := by
  rw [← String.empty_append (s := text)]
  exact h.not_endsIn_append hmark

/-- Numbers and names do not have the mark at all. -/
theorem IsLexeme.notMem_of_isExprEnd {kind : TokenKind} (h : IsLexeme kind text)
    (hkind : kind = .number ∨ kind = .name) (hmark : isExprEnd mark = false) :
    mark ∉ text.toList := by
  intro hmem
  rcases h.isNamePart_or_dot_of_mem hkind _ hmem with hpart | rfl
  · rw [isExprEnd, hpart] at hmark
    cases hmark
  · cases hmark

/-- Texts with dots between them end as one of the texts does, or in a dot. -/
theorem not_endsIn_intercalate (hmark : isExprEnd mark = false) {texts : List String}
    (htexts : ∀ text ∈ texts, ¬ EndsIn mark text) : ¬ EndsIn mark (".".intercalate texts) := by
  induction texts with
  | nil => exact fun hends => by cases hends
  | cons text texts ih =>
      rw [List.forall_mem_cons] at htexts
      cases texts with
      | nil => simpa using htexts.1
      | cons next texts =>
          rw [String.intercalate_cons_cons]
          exact not_endsIn_append ((by decide : EndsAsExpr ".").not_endsIn_append hmark)
            (ih htexts.2)

end

/-! ## Expressions -/

section Printed

variable {mark : Char} (hmark : isExprEnd mark = false) {x : Printed} {level : Precedence}

include hmark

theorem not_endsIn_parenthesized (x : Printed) : ¬ EndsIn mark x.parenthesized :=
  (by decide : EndsAsExpr ")").not_endsIn_append hmark

theorem not_endsIn_atLeast (h : ¬ EndsIn mark x.text) : ¬ EndsIn mark (x.atLeast level) := by
  rw [Printed.atLeast]
  split
  · exact h
  · exact not_endsIn_parenthesized hmark x

theorem not_endsIn_tighterThan (h : ¬ EndsIn mark x.text) : ¬ EndsIn mark (x.tighterThan level) :=
    by
  rw [Printed.tighterThan]
  split
  · exact h
  · exact not_endsIn_parenthesized hmark x

end Printed

/-- No spelling ends in the mark. -/
def Spellings.NoneEndsIn (mark : Char) (spellings : Spellings) : Prop :=
  ∀ entry ∈ spellings, ¬ EndsIn mark entry.2

/-- No spelling ends in a colon. -/
def Spellings.Colonless (spellings : Spellings) : Prop :=
  spellings.NoneEndsIn ':'

namespace Target

/-- What a dialect writes in front of a negated operand, for the truth values and behind a
position. -/
theorem endsAsExpr_dialect (target : Target) :
    EndsAsExpr target.dialect.not ∧ EndsAsExpr target.dialect.trueWord ∧
      EndsAsExpr target.dialect.falseWord ∧ EndsAsExpr target.dialect.closeIndex := by
  cases target <;> decide

variable {target : Target} {spellings? : Option Spellings} {mark : Char}
  (hmark : isExprEnd mark = false)

include hmark

theorem not_endsIn_binaryDigits (x : Printed) :
    ¬ EndsIn mark (target.dialect.binaryDigits x).text := by
  cases target with
  | javaScript => exact (by decide : EndsAsExpr ").toString(2)").not_endsIn_append hmark
  | python => exact (by decide : EndsAsExpr ", \"b\")").not_endsIn_append hmark
  | vba => exact (by decide : EndsAsExpr ")").not_endsIn_append hmark
  | ruby => exact (by decide : EndsAsExpr ".to_s(2)").not_endsIn_append hmark

theorem not_endsIn_random {least : Printed} (hleast : ¬ EndsIn mark least.text)
    (greatest : Printed) : ¬ EndsIn mark (target.dialect.random least greatest).text := by
  have hplus (text : String) : ¬ EndsIn mark (text ++ " + ") :=
    (by decide : EndsAsExpr " + ").not_endsIn_append hmark
  cases target with
  | python | ruby => exact (by decide : EndsAsExpr ")").not_endsIn_append hmark
  | javaScript | vba =>
      exact not_endsIn_append (hplus _) (not_endsIn_tighterThan hmark hleast)

theorem not_endsIn_builtin (function : Builtin) {args : List Printed}
    (hargs : ∀ x ∈ args, ¬ EndsIn mark x.text) :
    ¬ EndsIn mark ((target.printer spellings?).builtin function args).text := by
  have hclose (text : String) : ¬ EndsIn mark (text ++ ")") :=
    (by decide : EndsAsExpr ")").not_endsIn_append hmark
  unfold ExprPrinter.builtin
  split
  · exact hclose _
  · exact hclose _
  · exact not_endsIn_random hmark (hargs _ (.head _)) _
  · exact (by decide : EndsAsExpr " 0").not_endsIn_append hmark
  · exact not_endsIn_binaryDigits hmark _
  · exact hclose _

theorem not_endsIn_unary (op : UnaryOp) {operand : Printed} (h : ¬ EndsIn mark operand.text) :
    ¬ EndsIn mark ((target.printer spellings?).unary op operand).text := by
  cases op with
  | negate =>
      exact not_endsIn_append ((by decide : EndsAsExpr "-").not_endsIn hmark)
        (not_endsIn_tighterThan hmark h)
  | not =>
      refine not_endsIn_append (target.endsAsExpr_dialect.1.not_endsIn hmark) ?_
      split
      · exact not_endsIn_tighterThan hmark h
      · exact not_endsIn_atLeast hmark h

theorem not_endsIn_binary (op : BinaryOp) (left : Printed) {right : Printed}
    (h : ¬ EndsIn mark right.text) :
    ¬ EndsIn mark ((target.printer spellings?).binary op left right).text := by
  have hright : ¬ EndsIn mark (if op == .power then right.atLeast op.precedence
      else right.tighterThan op.precedence) := by
    split
    · exact not_endsIn_atLeast hmark h
    · exact not_endsIn_tighterThan hmark h
  have hrounded : ∀ before behind, target.dialect.floorDivision = .rounded before behind →
      EndsAsExpr behind := by
    cases target <;> rintro _ _ ⟨⟩ <;> decide
  unfold ExprPrinter.binary
  dsimp only
  split
  · next before behind hfloor => exact (hrounded before behind hfloor).not_endsIn_append hmark
  · exact not_endsIn_append ((by decide : EndsAsExpr " ").not_endsIn_append hmark) hright

theorem not_endsIn_name (hspellings : ∀ spellings ∈ spellings?, spellings.NoneEndsIn mark)
    {word : String} (hword : IsLexeme .name word) :
    ¬ EndsIn mark ((target.printer spellings?).name word) := by
  rw [ExprPrinter.name_eq_intercalate]
  apply not_endsIn_intercalate hmark
  apply ExprPrinter.forall_mem_segments (P := fun text => ¬ EndsIn mark text) _ hspellings
  exact fun segment hsegment => not_endsIn_of_notMem fun hmem =>
    hword.notMem_of_isExprEnd (.inr rfl) hmark (mem_of_mem_nameSegments hsegment hmem)

omit hmark in
mutual

/-- The text of an expression does not end in the mark. -/
theorem not_endsIn_print (hmark : isExprEnd mark = false)
    (hspellings : ∀ spellings ∈ spellings?, spellings.NoneEndsIn mark) :
    ∀ e : Expr, (∀ part ∈ e.parts, part.OwnLegible) →
      ¬ EndsIn mark ((target.printer spellings?).print e).text
  | .number _ text, h => by
      have htext : IsLexeme .number text := h _ (.head _)
      exact not_endsIn_of_notMem (htext.notMem_of_isExprEnd (.inl rfl) hmark)
  | .string _ contents, _ => by
      rw [ExprPrinter.print, Printed.primary, EndsIn, Dialect.stringLiteral,
        String.toList_ofList, List.getLast?_concat]
      rintro ⟨⟩
      cases hmark
  | .bool _ value, _ => by
      rw [ExprPrinter.print]
      cases value with
      | false => exact target.endsAsExpr_dialect.2.2.1.not_endsIn hmark
      | true => exact target.endsAsExpr_dialect.2.1.not_endsIn hmark
  | .name _ word, h => not_endsIn_name hmark hspellings (h _ (.head _))
  | .index .., _ => by
      rw [ExprPrinter.print]
      exact target.endsAsExpr_dialect.2.2.2.not_endsIn_append hmark
  | .call .., _ => by
      rw [ExprPrinter.print]
      exact (by decide : EndsAsExpr ")").not_endsIn_append hmark
  | .builtin _ function args, h => by
      rw [Expr.parts, List.forall_mem_cons] at h
      rw [ExprPrinter.print]
      exact not_endsIn_builtin hmark function (not_endsIn_printAll hmark hspellings args h.2)
  | .unary _ op operand, h => by
      rw [Expr.parts, List.forall_mem_cons] at h
      rw [ExprPrinter.print]
      exact not_endsIn_unary hmark op (not_endsIn_print hmark hspellings operand h.2)
  | .binary _ op left right, h => by
      rw [Expr.parts, List.forall_mem_cons, List.forall_mem_append] at h
      rw [ExprPrinter.print]
      exact not_endsIn_binary hmark op _ (not_endsIn_print hmark hspellings right h.2.2)
  | .group _ inner, _ => not_endsIn_parenthesized hmark _

theorem not_endsIn_printAll (hmark : isExprEnd mark = false)
    (hspellings : ∀ spellings ∈ spellings?, spellings.NoneEndsIn mark) :
    ∀ args : List Expr, (∀ part ∈ Expr.partsOfAll args, part.OwnLegible) →
      ∀ x ∈ (target.printer spellings?).printAll args, ¬ EndsIn mark x.text
  | [], _ => by simp [ExprPrinter.printAll]
  | e :: args, h => by
      rw [Expr.partsOfAll, List.forall_mem_append] at h
      rw [ExprPrinter.printAll, List.forall_mem_cons]
      exact ⟨not_endsIn_print hmark hspellings e h.1, not_endsIn_printAll hmark hspellings args h.2⟩

end

/-- Neither does the text of a slot. -/
theorem not_endsIn_text (hspellings : ∀ spellings ∈ spellings?, spellings.NoneEndsIn mark)
    {text : String} {e : Expr} (h : prepare text = .ok e) :
    ¬ EndsIn mark ((target.printer spellings?).text e) := by
  simp only [prepare, bind_eq_ok_iff] at h
  obtain ⟨_, _, _, hparse, _, _, heq⟩ := h
  cases heq
  exact not_endsIn_print hmark hspellings _ (Expr.ownLegible_of_parseExpr hparse)

end Target

end BlockCode
