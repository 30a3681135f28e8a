/- # Texts on one line

Operators, numbers, names and the words of a language bring no line feed into a line of code. String
literals do: no dialect escapes the line feeds in them. So an expression is printed on one line
exactly where the contents of its string literals stand on one line. What an action is about, its
expressions, its function and its label, is all that can break the lines that it becomes.
-/

import BlockCode.Proofs.Expr.Parts
import BlockCode.Proofs.Target.VbaAscii
import BlockCode.Target.Passage

namespace BlockCode

/-- The text has no line feed. -/
def OnOneLine (text : String) : Prop :=
  '\n' ∉ text.toList

instance (text : String) : Decidable (OnOneLine text) :=
  inferInstanceAs (Decidable (¬ _))

@[simp]
theorem onOneLine_append {text text' : String} :
    OnOneLine (text ++ text') ↔ OnOneLine text ∧ OnOneLine text' := by
  rw [OnOneLine, String.toList_append, List.mem_append, not_or]
  rfl

theorem onOneLine_intercalate {separator : String} (hseparator : OnOneLine separator)
    {texts : List String} :
    OnOneLine (separator.intercalate texts) ↔ ∀ text ∈ texts, OnOneLine text := by
  induction texts with
  | nil => simp +decide
  | cons text texts ih =>
      cases texts with
      | nil => simp
      | cons next texts =>
          rw [String.intercalate_cons_cons, onOneLine_append, onOneLine_append, ih,
            List.forall_mem_cons]
          simp [hseparator]

@[simp]
theorem onOneLine_commaList {texts : List String} :
    OnOneLine (commaList texts) ↔ ∀ text ∈ texts, OnOneLine text :=
  onOneLine_intercalate (by decide)

/-- Digits and signs are on one line. -/
@[simp]
theorem onOneLine_toString (n : Int) : OnOneLine (toString n) := by
  have hdigits (n : Nat) : '\n' ∉ (toString n).toList := fun h =>
    absurd (isAsciiNamePart_of_mem_toString h) (by decide)
  cases n with
  | ofNat n => exact hdigits n
  | negSucc n =>
      exact onOneLine_append.mpr ⟨(by decide : OnOneLine "-"), hdigits (n + 1)⟩

section Printed

variable {x : Printed} {level : Precedence}

@[simp]
theorem onOneLine_parenthesized : OnOneLine x.parenthesized ↔ OnOneLine x.text := by
  simp +decide [Printed.parenthesized]

@[simp]
theorem onOneLine_atLeast : OnOneLine (x.atLeast level) ↔ OnOneLine x.text := by
  rw [Printed.atLeast]
  split
  · rfl
  · exact onOneLine_parenthesized

@[simp]
theorem onOneLine_tighterThan : OnOneLine (x.tighterThan level) ↔ OnOneLine x.text := by
  rw [Printed.tighterThan]
  split
  · rfl
  · exact onOneLine_parenthesized

@[simp]
theorem onOneLine_atom : OnOneLine x.atom ↔ OnOneLine x.text :=
  onOneLine_atLeast

/-- A step with the other sign is on one line where the step is. -/
theorem onOneLine_negated {text : String} (h : x.negated = .ok text) (hx : OnOneLine x.text) :
    OnOneLine text := by
  rw [Printed.negated] at h
  split at h
  · obtain ⟨value, -, rfl⟩ := map_eq_ok_iff.mp h
    exact onOneLine_toString value
  · cases h
    simpa +decide using hx

end Printed

/-! ## Expressions -/

namespace Expr

/-- The expression is no string literal with a line feed in it. -/
def OwnOnOneLine : Expr → Prop
  | .string _ contents => BlockCode.OnOneLine contents
  | _ => True

/-- No string literal in the expression has a line feed in it. -/
def OnOneLine (e : Expr) : Prop :=
  ∀ part ∈ e.parts, part.OwnOnOneLine

end Expr

/-- The expression is printed on one line if it is a number or a name. -/
def PrintsWord (p : ExprPrinter) : Expr → Prop
  | .number _ text => OnOneLine text
  | .name _ word | .call _ word _ _ => OnOneLine (p.name word)
  | _ => True

section Print

variable {target : Target} {spellings? : Option Spellings}

theorem lineFeed_mem_backslashQuoted {c : Char} :
    '\n' ∈ Dialect.backslashQuoted c ↔ c = '\n' := by
  rw [Dialect.backslashQuoted]
  split <;> simp [eq_comm]

/-- A string literal is on one line exactly where its contents are. -/
theorem onOneLine_stringLiteral (target : Target) (contents : String) :
    OnOneLine (target.dialect.stringLiteral contents) ↔ OnOneLine contents := by
  have hchar (c : Char) : '\n' ∈ target.dialect.quotedChar c ↔ c = '\n' := by
    cases target with
    | javaScript | python => exact lineFeed_mem_backslashQuoted
    | vba =>
        change '\n' ∈ (if c == '"' then ['"', '"'] else [c]) ↔ _
        by_cases hc : c = '"'
        · subst hc
          decide
        · rw [if_neg (by simpa using hc), List.mem_singleton, eq_comm]
    | ruby =>
        change '\n' ∈ (if c == '#' then ['\\', c] else Dialect.backslashQuoted c) ↔ _
        split
        · simp [eq_comm]
        · exact lineFeed_mem_backslashQuoted
  simp [OnOneLine, Dialect.stringLiteral, hchar]

@[simp]
theorem onOneLine_random {least greatest : Printed} :
    OnOneLine (target.dialect.random least greatest).text ↔
      OnOneLine least.text ∧ OnOneLine greatest.text := by
  cases target <;>
    simp +decide [Target.dialect, Dialect.javaScript, Dialect.python, Dialect.vba, Dialect.ruby,
      Dialect.shiftedRandom, Dialect.rangeSize, Printed.primary] <;>
    tauto

@[simp]
theorem onOneLine_binaryDigits {x : Printed} :
    OnOneLine (target.dialect.binaryDigits x).text ↔ OnOneLine x.text := by
  cases target <;>
    simp +decide [Target.dialect, Dialect.javaScript, Dialect.python, Dialect.vba, Dialect.ruby,
      Printed.primary]

/-- What a dialect writes for operators, truth values and positions is on one line. -/
theorem onOneLine_dialect (target : Target) :
    (∀ op, OnOneLine (target.dialect.symbol op)) ∧ OnOneLine target.dialect.power ∧
      OnOneLine target.dialect.modulo ∧ OnOneLine target.dialect.notEqual ∧
      OnOneLine target.dialect.not ∧ OnOneLine target.dialect.trueWord ∧
      OnOneLine target.dialect.falseWord ∧ OnOneLine target.dialect.openIndex ∧
      OnOneLine target.dialect.closeIndex := by
  refine ⟨fun op => ?_, ?_⟩
  · cases target <;> cases op <;> decide
  · cases target <;> decide

theorem onOneLine_binary (op : BinaryOp) {left right : Printed} :
    OnOneLine ((target.printer spellings?).binary op left right).text ↔
      OnOneLine left.text ∧ OnOneLine right.text := by
  have hrounded : ∀ before behind, target.dialect.floorDivision = .rounded before behind →
      OnOneLine before ∧ OnOneLine behind := by
    cases target <;> rintro _ _ ⟨⟩ <;> decide
  have hleft (tight : Bool) : OnOneLine
      (if tight = true then left.tighterThan op.precedence else left.atLeast op.precedence) ↔
        OnOneLine left.text := by
    cases tight <;> simp
  have hright (tight : Bool) : OnOneLine
      (if tight = true then right.atLeast op.precedence else right.tighterThan op.precedence) ↔
        OnOneLine right.text := by
    cases tight <;> simp
  have hblank : OnOneLine " " := by decide
  have hsymbol := (onOneLine_dialect target).1 op
  unfold ExprPrinter.binary
  dsimp only
  split
  · next before behind hfloor =>
    obtain ⟨hbefore, hbehind⟩ := hrounded before behind hfloor
    simp only [Printed.primary, onOneLine_append, hleft, hright]
    simp [hbefore, hbehind, hblank, hsymbol, Target.printer]
  · simp only [onOneLine_append, hleft, hright]
    simp [hblank, hsymbol, Target.printer]

theorem onOneLine_builtin (function : Builtin) {args : List Printed} :
    OnOneLine ((target.printer spellings?).builtin function args).text ↔
      ∀ x ∈ args, OnOneLine x.text := by
  have hname : OnOneLine function.name := by cases function <;> decide
  obtain ⟨-, hpower, hmodulo, hnotEqual, -⟩ := onOneLine_dialect target
  unfold ExprPrinter.builtin
  split
  all_goals
    simp +decide [Printed.primary, Target.printer, hpower, hmodulo, hnotEqual, hname]

mutual

/-- An expression is printed on one line exactly where its string literals are on one line. -/
theorem onOneLine_print :
    ∀ e : Expr, (∀ part ∈ e.parts, PrintsWord (target.printer spellings?) part) →
      (OnOneLine ((target.printer spellings?).print e).text ↔ e.OnOneLine)
  | .number span text, h => by
      have htext : OnOneLine text := h _ (.head _)
      simp [ExprPrinter.print, Printed.primary, htext, Expr.OnOneLine, Expr.parts,
        Expr.OwnOnOneLine]
  | .string span contents, _ => by
      rw [ExprPrinter.print]
      refine (onOneLine_stringLiteral target contents).trans ?_
      simp [Expr.OnOneLine, Expr.parts, Expr.OwnOnOneLine]
  | .bool span value, _ => by
      obtain ⟨-, -, -, -, -, htrue, hfalse, -⟩ := onOneLine_dialect target
      have hword : OnOneLine
          (if value then target.dialect.trueWord else target.dialect.falseWord) := by
        cases value
        · exact hfalse
        · exact htrue
      simp [ExprPrinter.print, Printed.primary, Target.printer, hword, Expr.OnOneLine, Expr.parts,
        Expr.OwnOnOneLine]
  | .name span word, h => by
      have hword : OnOneLine ((target.printer spellings?).name word) := h _ (.head _)
      simp [ExprPrinter.print, Printed.primary, hword, Expr.OnOneLine, Expr.parts,
        Expr.OwnOnOneLine]
  | .index span base position, h => by
      rw [Expr.parts, List.forall_mem_cons, List.forall_mem_append] at h
      obtain ⟨-, -, -, -, -, -, -, hopen, hclose⟩ := onOneLine_dialect target
      have hparts : (Expr.index span base position).OnOneLine ↔
          base.OnOneLine ∧ position.OnOneLine := by
        simp [Expr.OnOneLine, Expr.parts, Expr.OwnOnOneLine, or_imp, forall_and]
      rw [ExprPrinter.print, hparts, ← onOneLine_print base h.2.1,
        ← onOneLine_print position h.2.2]
      simp [Printed.primary, Target.printer, hopen, hclose]
  | .call span word args userDefined, h => by
      rw [Expr.parts, List.forall_mem_cons] at h
      have hword : OnOneLine ((target.printer spellings?).name word) := h.1
      have hparts : (Expr.call span word args userDefined).OnOneLine ↔
          ∀ e ∈ args, e.OnOneLine := by
        simp [Expr.OnOneLine, Expr.parts, Expr.OwnOnOneLine, Expr.forall_mem_partsOfAll]
      rw [ExprPrinter.print, hparts, ← onOneLine_printAll args h.2]
      simp +decide [Printed.primary, hword]
  | .builtin span function args, h => by
      rw [Expr.parts, List.forall_mem_cons] at h
      have hparts : (Expr.builtin span function args).OnOneLine ↔ ∀ e ∈ args, e.OnOneLine := by
        simp [Expr.OnOneLine, Expr.parts, Expr.OwnOnOneLine, Expr.forall_mem_partsOfAll]
      rw [ExprPrinter.print, hparts, ← onOneLine_printAll args h.2]
      exact onOneLine_builtin function
  | .unary span op operand, h => by
      rw [Expr.parts, List.forall_mem_cons] at h
      have hnot := (onOneLine_dialect target).2.2.2.2.1
      have hparts : (Expr.unary span op operand).OnOneLine ↔ operand.OnOneLine := by
        simp [Expr.OnOneLine, Expr.parts, Expr.OwnOnOneLine]
      rw [ExprPrinter.print, hparts, ← onOneLine_print operand h.2]
      cases op with
      | negate => simp +decide [ExprPrinter.unary]
      | not =>
          simp only [ExprPrinter.unary, onOneLine_append]
          split <;> simp [Target.printer, hnot]
  | .binary span op left right, h => by
      rw [Expr.parts, List.forall_mem_cons, List.forall_mem_append] at h
      have hparts : (Expr.binary span op left right).OnOneLine ↔
          left.OnOneLine ∧ right.OnOneLine := by
        simp [Expr.OnOneLine, Expr.parts, Expr.OwnOnOneLine, or_imp, forall_and]
      rw [ExprPrinter.print, hparts, ← onOneLine_print left h.2.1, ← onOneLine_print right h.2.2]
      exact onOneLine_binary op
  | .group span inner, h => by
      rw [Expr.parts, List.forall_mem_cons] at h
      have hparts : (Expr.group span inner).OnOneLine ↔ inner.OnOneLine := by
        simp [Expr.OnOneLine, Expr.parts, Expr.OwnOnOneLine]
      rw [ExprPrinter.print, hparts, ← onOneLine_print inner h.2]
      exact onOneLine_parenthesized

theorem onOneLine_printAll :
    ∀ args : List Expr,
      (∀ part ∈ Expr.partsOfAll args, PrintsWord (target.printer spellings?) part) →
      ((∀ x ∈ (target.printer spellings?).printAll args, OnOneLine x.text) ↔
        ∀ e ∈ args, e.OnOneLine)
  | [], _ => by simp [ExprPrinter.printAll]
  | e :: args, h => by
      rw [Expr.partsOfAll, List.forall_mem_append] at h
      rw [ExprPrinter.printAll, List.forall_mem_cons, List.forall_mem_cons,
        onOneLine_print e h.1, onOneLine_printAll args h.2]

end

end Print

/-! ## Lines of code -/

section Lines

open Vba (functionName? label?)

variable {p : ExprPrinter}

@[simp]
theorem onOneLine_texts {exprs : List Expr} :
    OnOneLine (p.texts exprs) ↔ ∀ e ∈ exprs, OnOneLine (p.text e) := by
  simp [ExprPrinter.texts]

@[simp]
theorem onOneLine_comment {mark text : String} :
    OnOneLine (CodeLine.comment mark text).text ↔ OnOneLine mark ∧ OnOneLine text := by
  simp +decide [CodeLine.comment]

/-- What the action is about is printed on one line. -/
structure Action.OnOneLine (p : ExprPrinter) (action : Action) : Prop where
  exprs : ∀ e ∈ action.exprs, BlockCode.OnOneLine (p.text e)
  name : ∀ name ∈ functionName? action, BlockCode.OnOneLine (p.name name)
  label : ∀ label ∈ label? action, BlockCode.OnOneLine label

/-- A condition keeps its text, but for parentheses around the whole. -/
theorem JavaScript.onOneLine_condition {e : Expr} (h : OnOneLine (p.text e)) :
    OnOneLine (JavaScript.condition p e) := by
  have hungrouped : OnOneLine (p.text e.ungrouped) := by
    cases e with
    | group span inner => exact onOneLine_parenthesized.mp h
    | _ => exact h
  simp only [JavaScript.condition, onOneLine_append, hungrouped]
  decide



theorem JavaScript.onOneLine_loopHeader {direction : Direction} {counter first last step : Expr}
    (h : ∀ e ∈ [counter, first, last, step], OnOneLine (p.text e)) :
    OnOneLine (JavaScript.loopHeader p direction counter first last step) := by
  have hcounter := h counter (by simp)
  have hfirst := h first (by simp)
  have hlast := h last (by simp)
  have hstep := h step (by simp)
  have hadvance {sign : String} (hsign : OnOneLine sign) : OnOneLine
      (if (p.print step).isOne = true then p.text counter ++ sign ++ sign
        else p.text counter ++ " " ++ sign ++ "= " ++ p.text step) := by
    split
    · simp only [onOneLine_append, hcounter, hsign, and_self]
    · simp only [onOneLine_append, hcounter, hstep, hsign]
      decide
  have hplus := hadvance (by decide : OnOneLine "+")
  have hminus := hadvance (by decide : OnOneLine "-")
  unfold JavaScript.loopHeader
  cases direction
  all_goals
    dsimp only
    simp only [onOneLine_append, hcounter, hfirst, hlast, hplus, hminus]
    decide

theorem JavaScript.onOneLine_lines {action : Action} (h : action.OnOneLine p) :
    ∀ line ∈ JavaScript.lines p action, OnOneLine line.text := by
  obtain ⟨hexprs, hname, hlabel⟩ := h
  cases action with
  | assign constant target value =>
      have htarget := hexprs target (.head _)
      have hvalue := hexprs value (.tail _ (.head _))
      cases constant
      all_goals
        simp only [lines, List.forall_mem_singleton, onOneLine_append, htarget, hvalue]
        decide
  | initializeArray target items =>
      have htarget := hexprs target (.head _)
      have hitems := onOneLine_texts.mpr fun e he => hexprs e (.tail _ he)
      simp only [lines, List.forall_mem_singleton, onOneLine_append, htarget, hitems]
      decide
  | fillArray target value =>
      have htarget := hexprs target (.head _)
      have hvalue := hexprs value (.tail _ (.head _))
      simp only [lines, List.forall_mem_singleton, onOneLine_append, htarget, hvalue]
      decide
  | change direction target amount =>
      have htarget := hexprs target (.head _)
      have hamount := hexprs amount (.tail _ (.head _))
      cases direction
      all_goals
        simp only [lines, List.forall_mem_singleton, onOneLine_append, htarget, hamount]
        decide
  | output items =>
      have hitems : OnOneLine (p.texts items) := onOneLine_texts.mpr hexprs
      simp only [lines, List.forall_mem_singleton, onOneLine_append, hitems]
      decide
  | ifThen e | elseIf e | whileLoop e | endDoWhile e =>
      have hcondition := onOneLine_condition (hexprs e (.head _))
      simp only [lines, List.forall_mem_singleton, onOneLine_append, hcondition]
      decide
  | count direction counter first last step =>
      simpa only [lines, List.forall_mem_singleton] using onOneLine_loopHeader hexprs
  | defineFunction name items | callFunction name items =>
      have hname := hname name rfl
      have hitems : OnOneLine (p.texts items) := onOneLine_texts.mpr hexprs
      simp only [lines, List.forall_mem_singleton, onOneLine_append, hname, hitems]
      decide
  | region label | endRegion label =>
      have hlabel := hlabel label rfl
      simp only [lines, List.forall_mem_singleton, onOneLine_comment, onOneLine_append, hlabel]
      decide
  | otherwise | endIf | endWhile | doWhile | endCount | endFunction | leaveLoop =>
      simp only [lines, List.forall_mem_singleton]
      decide

theorem Ruby.onOneLine_loopCall {direction : Direction} {first last step : Expr} {text : String}
    (hfirst : OnOneLine (p.text first)) (hlast : OnOneLine (p.text last))
    (hstep : OnOneLine (p.text step)) (h : Ruby.loopCall p direction first last step = .ok text) :
    OnOneLine text := by
  have hstart {level : Precedence} : OnOneLine ((p.print first).atLeast level) :=
    onOneLine_atLeast.mpr hfirst
  have hatom : OnOneLine (p.print first).atom := onOneLine_atom.mpr hfirst
  unfold Ruby.loopCall at h
  dsimp only at h
  split at h
  · cases h
    simp only [onOneLine_append, hstart, hlast]
    decide
  · cases h
    simp only [onOneLine_append, hatom, hlast, hstep]
    decide
  · cases h
    simp only [onOneLine_append, hatom, hlast]
    decide
  · obtain ⟨negated, hnegated, ⟨⟩⟩ := bind_eq_ok_iff.mp h
    have hnegated := onOneLine_negated hnegated hstep
    simp only [onOneLine_append, hatom, hlast, hnegated]
    decide

theorem Ruby.onOneLine_lines {action : Action} (h : action.OnOneLine p) {own : List CodeLine}
    (hlines : Ruby.lines p action = .ok own) : ∀ line ∈ own, OnOneLine line.text := by
  obtain ⟨hexprs, hname, hlabel⟩ := h
  cases action with
  | assign constant target value | fillArray target value =>
      have htarget := hexprs target (.head _)
      have hvalue := hexprs value (.tail _ (.head _))
      cases hlines
      simp only [List.forall_mem_singleton, onOneLine_append, htarget, hvalue]
      decide
  | initializeArray target items =>
      have htarget := hexprs target (.head _)
      have hitems := onOneLine_texts.mpr fun e he => hexprs e (.tail _ he)
      cases hlines
      simp only [List.forall_mem_singleton, onOneLine_append, htarget, hitems]
      decide
  | change direction target amount =>
      have htarget := hexprs target (.head _)
      have hamount := hexprs amount (.tail _ (.head _))
      cases direction
      all_goals
        cases hlines
        simp only [List.forall_mem_singleton, onOneLine_append, htarget, hamount]
        decide
  | output items =>
      have hitems : OnOneLine (outputItems p items) := by
        unfold outputItems
        split
        · exact hexprs _ (.head _)
        · have hitems : OnOneLine (p.texts items) := onOneLine_texts.mpr hexprs
          simp only [onOneLine_append, hitems]
          decide
      cases hlines
      simp only [List.forall_mem_singleton, onOneLine_append, hitems]
      decide
  | ifThen e | elseIf e | whileLoop e | endDoWhile e =>
      have hcondition := hexprs e (.head _)
      cases hlines
      simp only [List.forall_mem_singleton, onOneLine_append, hcondition]
      decide
  | count direction counter first last step =>
      obtain ⟨text, htext, ⟨⟩⟩ := bind_eq_ok_iff.mp hlines
      have hcounter := hexprs counter (.head _)
      have hcall := onOneLine_loopCall (hexprs first (by simp [Action.exprs]))
        (hexprs last (by simp [Action.exprs])) (hexprs step (by simp [Action.exprs])) htext
      simp only [List.forall_mem_singleton, onOneLine_append, hcounter, hcall]
      decide
  | defineFunction name items | callFunction name items =>
      have hname := hname name rfl
      have hitems : OnOneLine (p.texts items) := onOneLine_texts.mpr hexprs
      cases hlines
      simp only [List.forall_mem_singleton, onOneLine_append, hname, hitems]
      decide
  | region label | endRegion label =>
      have hlabel := hlabel label rfl
      cases hlines
      simp only [List.forall_mem_singleton, onOneLine_comment, onOneLine_append, hlabel]
      decide
  | otherwise | endIf | endWhile | doWhile | endCount | endFunction | leaveLoop =>
      cases hlines
      decide

theorem Python.onOneLine_rangeHeader {direction : Direction} {counter first last step : Expr}
    {text : String} (h : ∀ e ∈ [counter, first, last, step], OnOneLine (p.text e))
    (htext : Python.rangeHeader p direction counter first last step = .ok text) :
    OnOneLine text := by
  have hcounter := h counter (by simp)
  have hfirst := h first (by simp)
  have hlast := h last (by simp)
  have hstep := h step (by simp)
  obtain ⟨stop, hread, htext⟩ := bind_eq_ok_iff.mp htext
  have hstop : OnOneLine stop := by
    unfold rangeStop at hread
    split at hread
    · obtain ⟨value, -, rfl⟩ := map_eq_ok_iff.mp hread
      exact onOneLine_toString value
    · have hadditive : OnOneLine ((p.print last).atLeast .additive) := onOneLine_atLeast.mpr hlast
      cases hread
      cases direction
      all_goals
        simp only [onOneLine_append, hadditive]
        decide
  dsimp only at htext
  cases direction with
  | up =>
      dsimp only at htext
      split at htext
      · cases htext
        simp only [onOneLine_append, hcounter, hfirst, hstop]
        decide
      · cases htext
        simp only [onOneLine_append, hcounter, hfirst, hstop, hstep]
        decide
  | down =>
      obtain ⟨negated, hnegated, ⟨⟩⟩ := bind_eq_ok_iff.mp htext
      have hnegated := onOneLine_negated hnegated hstep
      simp only [onOneLine_append, hcounter, hfirst, hstop, hnegated]
      decide

theorem Python.onOneLine_lines {action : Action} (h : action.OnOneLine p) {own : List CodeLine}
    (hlines : Python.lines p action = .ok own) : ∀ line ∈ own, OnOneLine line.text := by
  obtain ⟨hexprs, hname, hlabel⟩ := h
  cases action with
  | assign constant target value | fillArray target value =>
      have htarget := hexprs target (.head _)
      have hvalue := hexprs value (.tail _ (.head _))
      cases hlines
      simp only [List.forall_mem_singleton, onOneLine_append, htarget, hvalue]
      decide
  | initializeArray target items =>
      have htarget := hexprs target (.head _)
      have hitems := onOneLine_texts.mpr fun e he => hexprs e (.tail _ he)
      cases hlines
      simp only [List.forall_mem_singleton, onOneLine_append, htarget, hitems]
      decide
  | change direction target amount =>
      have htarget := hexprs target (.head _)
      have hamount := hexprs amount (.tail _ (.head _))
      cases direction
      all_goals
        cases hlines
        simp only [List.forall_mem_singleton, onOneLine_append, htarget, hamount]
        decide
  | output items =>
      have hitems : OnOneLine (p.texts items) := onOneLine_texts.mpr hexprs
      cases hlines
      simp only [List.forall_mem_singleton, onOneLine_append, hitems]
      decide
  | ifThen e | elseIf e | whileLoop e =>
      have hcondition := hexprs e (.head _)
      cases hlines
      simp only [List.forall_mem_singleton, onOneLine_append, hcondition]
      decide
  | endDoWhile e =>
      have hcondition : OnOneLine (p.print e).atom := onOneLine_atom.mpr (hexprs e (.head _))
      cases hlines
      simp only [List.forall_mem_cons, onOneLine_append, hcondition]
      decide
  | count direction counter first last step =>
      rw [lines] at hlines
      split at hlines
      · have hcounter := hexprs counter (.head _)
        have hfirst := hexprs first (by simp [Action.exprs])
        have hlast : OnOneLine ((p.print last).tighterThan .comparison) :=
          onOneLine_tighterThan.mpr (hexprs last (by simp [Action.exprs]))
        cases hlines
        cases direction
        all_goals
          simp only [fractionHeader, List.forall_mem_cons, onOneLine_append, hcounter, hfirst,
            hlast]
          decide
      · obtain ⟨text, htext, ⟨⟩⟩ := bind_eq_ok_iff.mp hlines
        rw [List.forall_mem_singleton]
        exact onOneLine_rangeHeader hexprs htext
  | endCount footer =>
      cases hlines
      cases footer with
      | bare | counter => simp [Python.footer]
      | advance direction counter step =>
          have hcounter := hexprs counter (.head _)
          have hstep := hexprs step (.tail _ (.head _))
          cases direction
          all_goals
            simp only [Python.footer, List.forall_mem_singleton, onOneLine_append, hcounter, hstep]
            decide
  | defineFunction name items | callFunction name items =>
      have hname := hname name rfl
      have hitems : OnOneLine (p.texts items) := onOneLine_texts.mpr hexprs
      cases hlines
      simp only [List.forall_mem_singleton, onOneLine_append, hname, hitems]
      decide
  | region label | endRegion label =>
      have hlabel := hlabel label rfl
      cases hlines
      simp only [List.forall_mem_singleton, onOneLine_comment, onOneLine_append, hlabel]
      decide
  | otherwise | endIf | endWhile | doWhile | endFunction | leaveLoop =>
      cases hlines
      decide

theorem Vba.onOneLine_loopHeader {direction : Direction} {counter first last step : Expr}
    {text : String} (h : ∀ e ∈ [counter, first, last, step], OnOneLine (p.text e))
    (htext : Vba.loopHeader p direction counter first last step = .ok text) : OnOneLine text := by
  have hcounter := h counter (by simp)
  have hfirst := h first (by simp)
  have hlast := h last (by simp)
  have hstep := h step (by simp)
  cases direction with
  | up =>
      rw [loopHeader] at htext
      split at htext
      all_goals
        cases htext
        simp only [onOneLine_append, hcounter, hfirst, hlast, hstep]
        decide
  | down =>
      obtain ⟨negated, hnegated, ⟨⟩⟩ := bind_eq_ok_iff.mp htext
      have hnegated := onOneLine_negated hnegated hstep
      simp only [onOneLine_append, hcounter, hfirst, hlast, hnegated]
      decide

theorem Vba.onOneLine_fillLoop {target value : String} (htarget : OnOneLine target)
    (hvalue : OnOneLine value) : OnOneLine (fillLoop target value) := by
  have hindex : OnOneLine fillIndex := by decide
  unfold fillLoop
  simp only [onOneLine_append, htarget, hvalue, hindex]
  decide

theorem Vba.onOneLine_lines {action : Action} (h : action.OnOneLine p) {own : List CodeLine}
    (hlines : Vba.lines p action = .ok own) : ∀ line ∈ own, OnOneLine line.text := by
  obtain ⟨hexprs, hname, hlabel⟩ := h
  cases action with
  | assign constant target value =>
      have htarget := hexprs target (.head _)
      have hvalue := hexprs value (.tail _ (.head _))
      cases hlines
      cases constant
      all_goals
        simp only [List.forall_mem_singleton, onOneLine_append, htarget, hvalue]
        decide
  | fillArray target value =>
      have htarget := hexprs target (.head _)
      have hvalue := hexprs value (.tail _ (.head _))
      cases hlines
      exact List.forall_mem_singleton.mpr (onOneLine_fillLoop htarget hvalue)
  | initializeArray target items =>
      have htarget := hexprs target (.head _)
      have hitems := onOneLine_texts.mpr fun e he => hexprs e (.tail _ he)
      cases hlines
      simp only [List.forall_mem_singleton, onOneLine_append, htarget, hitems]
      decide
  | change direction target amount =>
      have htarget := hexprs target (.head _)
      have hamount : OnOneLine ((p.print amount).tighterThan .additive) :=
        onOneLine_tighterThan.mpr (hexprs amount (.tail _ (.head _)))
      cases hlines
      cases direction
      all_goals
        simp only [List.forall_mem_singleton, onOneLine_append, htarget, hamount]
        decide
  | output items =>
      have hitems : OnOneLine (outputItems p items) := by
        unfold outputItems
        split
        · exact hexprs _ (.head _)
        · rw [onOneLine_intercalate (by decide), List.forall_mem_map]
          exact fun e he => onOneLine_atLeast.mpr (hexprs e he)
      cases hlines
      simp only [List.forall_mem_singleton, onOneLine_append, hitems]
      decide
  | ifThen e | elseIf e | whileLoop e | endDoWhile e =>
      have hcondition := hexprs e (.head _)
      cases hlines
      simp only [List.forall_mem_singleton, onOneLine_append, hcondition]
      decide
  | count direction counter first last step =>
      obtain ⟨text, htext, ⟨⟩⟩ := bind_eq_ok_iff.mp hlines
      rw [List.forall_mem_singleton]
      exact onOneLine_loopHeader hexprs htext
  | endCount footer =>
      cases hlines
      cases footer with
      | bare => exact List.forall_mem_singleton.mpr (by decide : OnOneLine "Next")
      | counter counter | advance _ counter =>
          have hcounter := hexprs counter (.head _)
          simp only [loopEnd, List.forall_mem_singleton, onOneLine_append, hcounter]
          decide
  | defineFunction name items | callFunction name items =>
      have hname := hname name rfl
      have hitems : OnOneLine (p.texts items) := onOneLine_texts.mpr hexprs
      cases hlines
      simp only [List.forall_mem_singleton, onOneLine_append, hname, hitems]
      decide
  | region label | endRegion label =>
      have hlabel := hlabel label rfl
      cases hlines
      simp only [List.forall_mem_singleton, onOneLine_comment, onOneLine_append, hlabel]
      decide
  | leaveLoop loop? =>
      cases hlines
      rw [List.forall_mem_singleton]
      split <;> decide
  | otherwise | endIf | endWhile | doWhile | endFunction =>
      cases hlines
      decide

/-- An action that is printed on one line becomes lines that are. -/
theorem Action.OnOneLine.lines {target : Target} {spellings? : Option Spellings} {action : Action}
    (h : action.OnOneLine (target.printer spellings?)) {own : List CodeLine}
    (hlines : target.lines spellings? action = .ok own) :
    ∀ line ∈ own, BlockCode.OnOneLine line.text := by
  cases target with
  | javaScript =>
      cases hlines
      exact JavaScript.onOneLine_lines h
  | python => exact Python.onOneLine_lines h hlines
  | vba => exact Vba.onOneLine_lines h hlines
  | ruby => exact Ruby.onOneLine_lines h hlines

end Lines

end BlockCode
