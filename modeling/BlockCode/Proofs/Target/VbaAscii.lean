/- # ASCII outside of string literals

VBA takes foreign characters in string literals and in comments only. What an expression is printed
as has no others where its names are printed so: its operators and numbers are ASCII, and a string
literal ends where it is closed, because a double quote in it is written twice.
-/

import BlockCode.Proofs.Names.CodePoints
import BlockCode.Proofs.Outcome
import BlockCode.Target.Vba

namespace BlockCode

namespace Vba

/-- Whether a text ends inside a string literal, when it starts inside or outside of one. A
character beyond ASCII outside of the literals leaves no answer. -/
def quotesAfter? (inside : Bool) : List Char → Option Bool
  | [] => some inside
  | c :: rest =>
    if c == '"' then quotesAfter? (!inside) rest
    else if inside || c.toNat < 128 then quotesAfter? inside rest
    else none

/-- The text has only ASCII characters outside of string literals. -/
def IsAsciiCode (text : String) : Prop :=
  (quotesAfter? false text.toList).isSome = true

/-- So has the text, and every string literal in it is closed. -/
def IsAsciiPhrase (text : String) : Prop :=
  quotesAfter? false text.toList = some false

instance (text : String) : Decidable (IsAsciiCode text) :=
  inferInstanceAs (Decidable (_ = _))

instance (text : String) : Decidable (IsAsciiPhrase text) :=
  inferInstanceAs (Decidable (_ = _))

theorem quotesAfter?_append (inside : Bool) (text text' : List Char) :
    quotesAfter? inside (text ++ text') =
      (quotesAfter? inside text).bind fun inside => quotesAfter? inside text' := by
  fun_induction quotesAfter? inside text with
  | case1 => rfl
  | case2 inside c rest hquote ih => rw [List.cons_append, quotesAfter?, if_pos hquote, ih]
  | case3 inside c rest hquote hplain ih =>
      rw [List.cons_append, quotesAfter?, if_neg hquote, if_pos hplain, ih]
  | case4 inside c rest hquote hplain =>
      rw [List.cons_append, quotesAfter?, if_neg hquote, if_neg hplain]
      rfl

/-- A text of ASCII characters has only such, whatever quotes are in it. -/
theorem isAsciiCode_of_isAsciiText {text : String} (h : isAsciiText text = true) :
    IsAsciiCode text := by
  have hscan : ∀ (chars : List Char) (inside : Bool), (∀ c ∈ chars, c.toNat < 128) →
      (quotesAfter? inside chars).isSome = true := by
    intro chars
    induction chars with
    | nil => exact fun _ _ => rfl
    | cons c chars ih =>
        intro inside hchars
        rw [List.forall_mem_cons] at hchars
        rw [quotesAfter?]
        split
        · exact ih _ hchars.2
        · rw [decide_eq_true hchars.1, Bool.or_true, if_pos rfl]
          exact ih _ hchars.2
  exact hscan _ _ fun c hc => of_decide_eq_true (List.all_eq_true.mp h c hc)

namespace IsAsciiPhrase

variable {text text' : String}

theorem isAsciiCode (h : IsAsciiPhrase text) : IsAsciiCode text := by
  rw [IsAsciiCode, h]
  rfl

theorem append (h : IsAsciiPhrase text) (h' : IsAsciiPhrase text') :
    IsAsciiPhrase (text ++ text') := by
  rw [IsAsciiPhrase, String.toList_append, quotesAfter?_append, h]
  exact h'

theorem of_forall (h : ∀ c ∈ text.toList, c ≠ '"' ∧ c.toNat < 128) : IsAsciiPhrase text := by
  rw [IsAsciiPhrase]
  generalize text.toList = chars at h
  induction chars with
  | nil => rfl
  | cons c chars ih =>
      rw [List.forall_mem_cons] at h
      rw [quotesAfter?, if_neg (by simpa using h.1.1), if_pos (by simpa using h.1.2)]
      exact ih h.2

theorem of_isAsciiNamePart (h : ∀ c ∈ text.toList, isAsciiNamePart c = true) :
    IsAsciiPhrase text :=
  of_forall fun c hc =>
    ⟨ne_of_isAsciiNamePart (h c hc) (by decide), lt_of_isAsciiNamePart (h c hc)⟩

theorem intercalate {separator : String} (hseparator : IsAsciiPhrase separator)
    {texts : List String} (h : ∀ text ∈ texts, IsAsciiPhrase text) :
    IsAsciiPhrase (separator.intercalate texts) := by
  induction texts with
  | nil => exact (by decide : IsAsciiPhrase "")
  | cons text texts ih =>
      rw [List.forall_mem_cons] at h
      cases texts with
      | nil => simpa using h.1
      | cons next texts =>
          rw [String.intercalate_cons_cons]
          exact (h.1.append hseparator).append (ih h.2)

theorem commaList {texts : List String} (h : ∀ text ∈ texts, IsAsciiPhrase text) :
    IsAsciiPhrase (commaList texts) :=
  .intercalate (by decide) h

/-- Quotes that are written twice leave a string literal open. -/
theorem stringLiteral (contents : String) : IsAsciiPhrase (Dialect.vba.stringLiteral contents) := by
  have hcontents (chars : List Char) :
      quotesAfter? true (chars.flatMap Dialect.vba.quotedChar) = some true := by
    induction chars with
    | nil => rfl
    | cons c chars ih =>
        have hchar : quotesAfter? true (Dialect.vba.quotedChar c) = some true := by
          by_cases hc : c = '"'
          · subst hc
            rfl
          · rw [show Dialect.vba.quotedChar c = [c] from if_neg (by simpa using hc),
              quotesAfter?, if_neg (by simpa using hc)]
            rfl
        rw [List.flatMap_cons, quotesAfter?_append, hchar]
        exact ih
  rw [IsAsciiPhrase, Dialect.stringLiteral, String.toList_ofList, List.cons_append, quotesAfter?,
    if_pos (by rfl), quotesAfter?_append, Bool.not_false, hcontents]
  rfl

variable {x : Printed} {level : Precedence}

theorem parenthesized (h : IsAsciiPhrase x.text) : IsAsciiPhrase x.parenthesized :=
  ((by decide : IsAsciiPhrase "(").append h).append (by decide)

theorem atLeast (h : IsAsciiPhrase x.text) : IsAsciiPhrase (x.atLeast level) := by
  rw [Printed.atLeast]
  split
  · exact h
  · exact h.parenthesized

theorem tighterThan (h : IsAsciiPhrase x.text) : IsAsciiPhrase (x.tighterThan level) := by
  rw [Printed.tighterThan]
  split
  · exact h
  · exact h.parenthesized

end IsAsciiPhrase

/-! ## Expressions -/

/-- Numbers and names are printed without quotes and in ASCII. -/
def PrintsPart (p : ExprPrinter) : Expr → Prop
  | .number _ text => IsAsciiPhrase text
  | .name _ word | .call _ word _ _ => IsAsciiPhrase (p.name word)
  | _ => True

section Printing

variable {spellings? : Option Spellings}

theorem isAsciiPhrase_symbol (op : BinaryOp) : IsAsciiPhrase (Dialect.vba.symbol op) := by
  cases op <;> decide

theorem isAsciiPhrase_binary (op : BinaryOp) {left right : Printed}
    (hleft : IsAsciiPhrase left.text) (hright : IsAsciiPhrase right.text) :
    IsAsciiPhrase ((Target.vba.printer spellings?).binary op left right).text := by
  have hfit {x : Printed} (h : IsAsciiPhrase x.text) (tight : Bool) :
      IsAsciiPhrase (if tight then x.tighterThan op.precedence else x.atLeast op.precedence) := by
    cases tight
    · exact h.atLeast
    · exact h.tighterThan
  have htext : ((Target.vba.printer spellings?).binary op left right).text =
      (if op == .power || op.isComparison then left.tighterThan op.precedence
        else left.atLeast op.precedence)
      ++ " " ++ Dialect.vba.symbol op ++ " " ++
      (if op != .power then right.tighterThan op.precedence else right.atLeast op.precedence) := by
    cases op <;> rfl
  rw [htext]
  exact ((((hfit hleft _).append (by decide)).append (isAsciiPhrase_symbol op)).append
    (by decide)).append (hfit hright _)

theorem isAsciiPhrase_builtin (function : Builtin) {args : List Printed}
    (h : ∀ x ∈ args, IsAsciiPhrase x.text) :
    IsAsciiPhrase ((Target.vba.printer spellings?).builtin function args).text := by
  have hname : IsAsciiPhrase function.name := by cases function <;> decide
  unfold ExprPrinter.builtin
  split
  · rename_i x
    have hx : IsAsciiPhrase x.atom := (h x (by simp)).atLeast
    exact ((((by decide : IsAsciiPhrase "(").append hx).append (by decide)).append hx).append
      (by decide)
  · rename_i base exponent
    have hbase : IsAsciiPhrase base.atom := (h base (by simp)).atLeast
    have hexponent : IsAsciiPhrase exponent.atom := (h exponent (by simp)).atLeast
    exact ((((((by decide : IsAsciiPhrase "(").append hbase).append (by decide)).append
      (show IsAsciiPhrase "^" by decide)).append (by decide)).append hexponent).append (by decide)
  · rename_i least greatest
    have hleast := h least (by simp)
    have hsize : IsAsciiPhrase (Dialect.rangeSize least greatest) :=
      (((h greatest (by simp)).atLeast.append (by decide)).append hleast.tighterThan).append
        (by decide)
    exact ((((by decide : IsAsciiPhrase "Int(Rnd() * (").append hsize).append
      (by decide : IsAsciiPhrase "))")).append (by decide)).append hleast.tighterThan
  · rename_i x
    exact (((((h x (by simp)).atLeast.append (by decide)).append
      (show IsAsciiPhrase "Mod" by decide)).append (by decide)).append
      (show IsAsciiPhrase "<>" by decide)).append (by decide)
  · rename_i x
    exact ((by decide : IsAsciiPhrase "WorksheetFunction.Dec2Bin(").append (h x (by simp))).append
      (by decide)
  · exact ((hname.append (by decide)).append
      (.commaList (List.forall_mem_map.mpr h))).append (by decide)

mutual

/-- What an expression is printed as is closed. -/
theorem isAsciiPhrase_print :
    ∀ e : Expr, (∀ part ∈ e.parts, PrintsPart (Target.vba.printer spellings?) part) →
      IsAsciiPhrase ((Target.vba.printer spellings?).print e).text
  | .number _ text, h => h _ (.head _)
  | .string _ contents, _ => .stringLiteral contents
  | .bool _ value, _ => by
      cases value
      · exact (by decide : IsAsciiPhrase "False")
      · exact (by decide : IsAsciiPhrase "True")
  | .name _ word, h => h _ (.head _)
  | .index _ base position, h => by
      rw [Expr.parts, List.forall_mem_cons, List.forall_mem_append] at h
      rw [ExprPrinter.print]
      exact (((isAsciiPhrase_print base h.2.1).atLeast.append
        (show IsAsciiPhrase "(" by decide)).append (isAsciiPhrase_print position h.2.2)).append
        (show IsAsciiPhrase ")" by decide)
  | .call _ word args _, h => by
      rw [Expr.parts, List.forall_mem_cons] at h
      rw [ExprPrinter.print]
      exact ((h.1.append (by decide)).append
        (.commaList (List.forall_mem_map.mpr (isAsciiPhrase_printAll args h.2)))).append (by decide)
  | .builtin _ function args, h => by
      rw [Expr.parts, List.forall_mem_cons] at h
      rw [ExprPrinter.print]
      exact isAsciiPhrase_builtin function (isAsciiPhrase_printAll args h.2)
  | .unary _ op operand, h => by
      rw [Expr.parts, List.forall_mem_cons] at h
      have hoperand := isAsciiPhrase_print operand h.2
      rw [ExprPrinter.print]
      cases op with
      | negate => exact (by decide : IsAsciiPhrase "-").append hoperand.tighterThan
      | not => exact (by decide : IsAsciiPhrase "Not ").append hoperand.atLeast
  | .binary _ op left right, h => by
      rw [Expr.parts, List.forall_mem_cons, List.forall_mem_append] at h
      rw [ExprPrinter.print]
      exact isAsciiPhrase_binary op (isAsciiPhrase_print left h.2.1)
        (isAsciiPhrase_print right h.2.2)
  | .group _ inner, h => by
      rw [Expr.parts, List.forall_mem_cons] at h
      rw [ExprPrinter.print]
      exact (isAsciiPhrase_print inner h.2).parenthesized

theorem isAsciiPhrase_printAll :
    ∀ args : List Expr,
      (∀ part ∈ Expr.partsOfAll args, PrintsPart (Target.vba.printer spellings?) part) →
      ∀ x ∈ (Target.vba.printer spellings?).printAll args, IsAsciiPhrase x.text
  | [], _ => by simp [ExprPrinter.printAll]
  | e :: args, h => by
      rw [Expr.partsOfAll, List.forall_mem_append] at h
      rw [ExprPrinter.printAll, List.forall_mem_cons]
      exact ⟨isAsciiPhrase_print e h.1, isAsciiPhrase_printAll args h.2⟩

end

/-! ## Lines -/

/-- Digits and signs are ASCII. -/
theorem isAsciiPhrase_toString (n : Int) : IsAsciiPhrase (toString n) := by
  cases n with
  | ofNat n =>
      exact .of_isAsciiNamePart fun c (hc : c ∈ (toString n).toList) =>
        isAsciiNamePart_of_mem_toString hc
  | negSucc n =>
      exact (by decide : IsAsciiPhrase "-").append
        (.of_isAsciiNamePart fun c (hc : c ∈ (toString (n + 1)).toList) =>
          isAsciiNamePart_of_mem_toString hc)

theorem isAsciiPhrase_negated {x : Printed} (h : IsAsciiPhrase x.text) {text : String}
    (htext : x.negated = .ok text) : IsAsciiPhrase text := by
  rw [Printed.negated] at htext
  split at htext
  · obtain ⟨value, -, rfl⟩ := map_eq_ok_iff.mp htext
    exact isAsciiPhrase_toString value
  · cases htext
    exact (by decide : IsAsciiPhrase "-").append h.tighterThan

/-- A line of code has only ASCII characters outside of string literals, and any other line is a
comment that goes on to the end of it. -/
def ReadsAscii (line : CodeLine) : Prop :=
  if line.isCode then IsAsciiCode line.text
  else line.text.toList.head? = some '\'' ∧ '\n' ∉ line.text.toList

instance (line : CodeLine) : Decidable (ReadsAscii line) :=
  inferInstanceAs (Decidable (if line.isCode then IsAsciiCode line.text
    else line.text.toList.head? = some '\'' ∧ '\n' ∉ line.text.toList))

/-- The function that the action defines or calls by its name. -/
def functionName? : Action → Option String
  | .defineFunction name _ | .callFunction name _ => some name
  | _ => none

/-- The label of the region that the action opens or closes. -/
def label? : Action → Option String
  | .region label | .endRegion label => some label
  | _ => none

/-- What the action is about is printed without foreign characters, or is a label on one line. -/
structure SpelledAction (p : ExprPrinter) (action : Action) : Prop where
  exprs : ∀ e ∈ action.exprs, IsAsciiPhrase (p.text e)
  name : ∀ name ∈ functionName? action, IsAsciiPhrase (p.name name)
  label : ∀ label ∈ label? action, '\n' ∉ label.toList

theorem isAsciiPhrase_outputItems {items : List Expr}
    (h : ∀ e ∈ items, IsAsciiPhrase ((Target.vba.printer spellings?).text e)) :
    IsAsciiPhrase (outputItems (Target.vba.printer spellings?) items) := by
  unfold outputItems
  split
  · exact h _ (.head _)
  · refine .intercalate (by decide) (List.forall_mem_map.mpr fun e he => ?_)
    exact IsAsciiPhrase.atLeast (h e he)

theorem isAsciiPhrase_fillLoop {target value : String} (htarget : IsAsciiPhrase target)
    (hvalue : IsAsciiPhrase value) : IsAsciiPhrase (fillLoop target value) := by
  have hindex : IsAsciiPhrase fillIndex := by decide
  exact ((((((((((((by decide : IsAsciiPhrase "For ").append hindex).append (by decide)).append
    htarget).append (by decide)).append htarget).append (by decide)).append htarget).append
    (by decide)).append hindex).append (by decide)).append hvalue).append (by decide) |>.append
    hindex

theorem isAsciiPhrase_loopHeader {direction : Direction} {counter first last step : Expr}
    (h : ∀ e ∈ [counter, first, last, step],
      IsAsciiPhrase ((Target.vba.printer spellings?).text e)) {text : String}
    (htext : loopHeader (Target.vba.printer spellings?) direction counter first last step =
      .ok text) : IsAsciiPhrase text := by
  have hstep := h step (by simp)
  have hheader := (((((by decide : IsAsciiPhrase "For ").append (h counter (by simp))).append
    (by decide : IsAsciiPhrase " = ")).append (h first (by simp))).append
    (by decide : IsAsciiPhrase " To ")).append (h last (by simp))
  cases direction with
  | up =>
      rw [loopHeader] at htext
      split at htext
      · cases htext
        exact hheader
      · cases htext
        exact (hheader.append (by decide)).append hstep
  | down =>
      obtain ⟨negated, hnegated, ⟨⟩⟩ := bind_eq_ok_iff.mp htext
      exact (hheader.append (by decide)).append (isAsciiPhrase_negated hstep hnegated)

/-- An action that is spelled in ASCII becomes lines that read so. -/
theorem SpelledAction.readsAscii_lines {action : Action} {own : List CodeLine}
    (h : SpelledAction (Target.vba.printer spellings?) action)
    (hlines : lines (Target.vba.printer spellings?) action = .ok own) :
    ∀ line ∈ own, ReadsAscii line := by
  have single {text : String} (htext : IsAsciiPhrase text) :
      ∀ line ∈ [({ text := text } : CodeLine)], ReadsAscii line := by
    rw [List.forall_mem_singleton, ReadsAscii, if_pos (show CodeLine.isCode _ = true from rfl)]
    exact htext.isAsciiCode
  have comment {start label : String} (hstart : '\n' ∉ start.toList)
      (hlabel : '\n' ∉ label.toList) :
      ∀ line ∈ [CodeLine.comment "'" (start ++ label)], ReadsAscii line := by
    rw [List.forall_mem_singleton, ReadsAscii, if_neg (by simp [CodeLine.isCode, CodeLine.comment])]
    simp [CodeLine.comment, hstart, hlabel]
  have texts {items : List Expr}
      (hitems : ∀ e ∈ items, IsAsciiPhrase ((Target.vba.printer spellings?).text e)) :
      IsAsciiPhrase ((Target.vba.printer spellings?).texts items) :=
    .commaList (List.forall_mem_map.mpr hitems)
  cases action with
  | assign constant target value =>
      cases hlines
      have hconst : IsAsciiPhrase (if constant then "Const " else "") := by
        cases constant <;> decide
      exact single (((hconst.append (h.exprs target (by simp [Action.exprs]))).append
        (by decide)).append (h.exprs value (by simp [Action.exprs])))
  | initializeArray target items =>
      cases hlines
      exact single ((((h.exprs target (.head _)).append (by decide)).append
        (texts fun e he => h.exprs e (.tail _ he))).append (by decide))
  | fillArray target value =>
      cases hlines
      exact single (isAsciiPhrase_fillLoop (h.exprs target (.head _))
        (h.exprs value (.tail _ (.head _))))
  | change direction target amount =>
      cases hlines
      have htarget := h.exprs target (.head _)
      have hamount := h.exprs amount (.tail _ (.head _))
      cases direction
      all_goals
        exact single ((((htarget.append (by decide)).append htarget).append (by decide)).append
          hamount.tighterThan)
  | output items =>
      cases hlines
      exact single ((by decide : IsAsciiPhrase "Debug.Print ").append
        (isAsciiPhrase_outputItems h.exprs))
  | ifThen e | elseIf e =>
      cases hlines
      exact single (((by decide : IsAsciiPhrase _).append (h.exprs e (.head _))).append (by decide))
  | whileLoop e | endDoWhile e =>
      cases hlines
      exact single ((by decide : IsAsciiPhrase _).append (h.exprs e (.head _)))
  | otherwise | endIf | endWhile | doWhile | endFunction =>
      cases hlines
      exact single (by decide)
  | count direction counter first last step =>
      obtain ⟨text, htext, ⟨⟩⟩ := bind_eq_ok_iff.mp hlines
      exact single (isAsciiPhrase_loopHeader h.exprs htext)
  | endCount footer =>
      cases hlines
      refine single ?_
      cases footer with
      | bare => exact (by decide : IsAsciiPhrase "Next")
      | counter counter | advance _ counter _ =>
          exact (by decide : IsAsciiPhrase "Next ").append (h.exprs counter (.head _))
  | defineFunction name parameters =>
      cases hlines
      exact single ((((by decide : IsAsciiPhrase "Sub ").append (h.name name rfl)).append
        (by decide)).append (texts h.exprs) |>.append (by decide))
  | callFunction name args =>
      cases hlines
      exact single ((((by decide : IsAsciiPhrase "Call ").append (h.name name rfl)).append
        (by decide)).append (texts h.exprs) |>.append (by decide))
  | leaveLoop loop? =>
      cases hlines
      refine single ?_
      split <;> decide
  | region label =>
      cases hlines
      exact comment (by decide) (h.label label rfl)
  | endRegion label =>
      cases hlines
      exact comment (by decide) (h.label label rfl)

end Printing

end Vba

end BlockCode
