/- # What code takes from spellings

Names reach the code only through their printer. With a table it spells a name segment by segment,
and without one it leaves the name as it is. Printers that spell every name alike therefore give the
same code, and so an empty table gives the code of no table.
-/

import BlockCode.Proofs.Names.Segments
import BlockCode.Target.Passage

namespace BlockCode

/-! ## Printers that agree -/

/-- Two printers spell all names alike and print all expressions alike. -/
structure ExprPrinter.Agrees (p p' : ExprPrinter) : Prop where
  name : ∀ word, p.name word = p'.name word
  print : ∀ e, p.print e = p'.print e

namespace ExprPrinter.Agrees

variable {p p' : ExprPrinter} (h : p.Agrees p')

include h

theorem text (e : Expr) : p.text e = p'.text e := by
  rw [ExprPrinter.text, ExprPrinter.text, h.print]

theorem texts (exprs : List Expr) : p.texts exprs = p'.texts exprs := by
  rw [ExprPrinter.texts, ExprPrinter.texts, List.map_congr_left fun e _ => h.text e]

theorem javaScript_lines (action : Action) :
    JavaScript.lines p action = JavaScript.lines p' action := by
  have hheader (direction : Direction) (counter first last step : Expr) :
      JavaScript.loopHeader p direction counter first last step =
        JavaScript.loopHeader p' direction counter first last step := by
    unfold JavaScript.loopHeader
    cases direction
    all_goals
      dsimp only
      simp only [h.print, h.text]
  cases action with
  | change direction target amount =>
      cases direction
      all_goals simp only [JavaScript.lines, h.text]
  | _ => simp only [JavaScript.lines, JavaScript.condition, hheader, h.name, h.text, h.texts]

theorem python_lines (action : Action) : Python.lines p action = Python.lines p' action := by
  have hheader (direction : Direction) (counter first last step : Expr) :
      Python.rangeHeader p direction counter first last step =
        Python.rangeHeader p' direction counter first last step := by
    unfold Python.rangeHeader Python.rangeStop
    simp only [h.print, h.text]
  cases action with
  | change direction target amount =>
      cases direction
      all_goals simp only [Python.lines, h.text]
  | count direction counter first last step =>
      simp only [Python.lines, Python.fractionHeader, hheader, h.print, h.text]
  | endCount footer =>
      cases footer with
      | advance direction counter step =>
          cases direction
          all_goals simp only [Python.lines, Python.footer, h.text]
      | _ => simp only [Python.lines, Python.footer]
  | _ => simp only [Python.lines, h.name, h.print, h.text, h.texts]

theorem vba_lines (action : Action) : Vba.lines p action = Vba.lines p' action := by
  have hheader (direction : Direction) (counter first last step : Expr) :
      Vba.loopHeader p direction counter first last step =
        Vba.loopHeader p' direction counter first last step := by
    unfold Vba.loopHeader
    simp only [h.print, h.text]
  have hitems (items : List Expr) : Vba.outputItems p items = Vba.outputItems p' items := by
    unfold Vba.outputItems
    simp only [h.print, h.text]
  have hend (footer : LoopFooter) : Vba.loopEnd p footer = Vba.loopEnd p' footer := by
    unfold Vba.loopEnd
    simp only [h.text]
  cases action with
  | change direction target amount =>
      cases direction
      all_goals simp only [Vba.lines, h.print, h.text]
  | _ => simp only [Vba.lines, hheader, hitems, hend, h.name, h.text, h.texts]

theorem ruby_lines (action : Action) : Ruby.lines p action = Ruby.lines p' action := by
  have hcall (direction : Direction) (first last step : Expr) :
      Ruby.loopCall p direction first last step = Ruby.loopCall p' direction first last step := by
    unfold Ruby.loopCall
    simp only [h.print, h.text]
  have hitems (items : List Expr) : Ruby.outputItems p items = Ruby.outputItems p' items := by
    unfold Ruby.outputItems
    simp only [h.text, h.texts]
  cases action with
  | change direction target amount =>
      cases direction
      all_goals simp only [Ruby.lines, h.text]
  | _ => simp only [Ruby.lines, hcall, hitems, h.name, h.text, h.texts]

end ExprPrinter.Agrees

/-- Both tables spell every name alike. Having no table is to keep every name. -/
def SpellAlike (spellings? spellings?' : Option Spellings) : Prop :=
  ∀ target : Target, ∀ word,
    (target.printer spellings?).name word = (target.printer spellings?').name word

namespace Target

variable {spellings? spellings?' : Option Spellings} (target : Target)

mutual

/-- An expression is printed alike where its names are spelled alike. -/
theorem print_congr (h : SpellAlike spellings? spellings?') :
    ∀ e : Expr, (target.printer spellings?).print e = (target.printer spellings?').print e
  | .number _ _ | .string _ _ | .bool _ _ => rfl
  | .name _ word => congrArg Printed.primary (h target word)
  | .index _ base position => by
      rw [ExprPrinter.print, ExprPrinter.print, print_congr h base, print_congr h position]
      rfl
  | .call _ word args _ => by
      rw [ExprPrinter.print, ExprPrinter.print, h target word, printAll_congr h args]
  | .builtin _ _ args => by
      rw [ExprPrinter.print, ExprPrinter.print, printAll_congr h args]
      rfl
  | .unary _ _ operand => by
      rw [ExprPrinter.print, ExprPrinter.print, print_congr h operand]
      rfl
  | .binary _ _ left right => by
      rw [ExprPrinter.print, ExprPrinter.print, print_congr h left, print_congr h right]
      rfl
  | .group _ inner => by
      rw [ExprPrinter.print, ExprPrinter.print, print_congr h inner]

theorem printAll_congr (h : SpellAlike spellings? spellings?') : ∀ exprs : List Expr,
    (target.printer spellings?).printAll exprs = (target.printer spellings?').printAll exprs
  | [] => rfl
  | e :: rest => by
      rw [ExprPrinter.printAll, ExprPrinter.printAll, print_congr h e, printAll_congr h rest]

end

theorem lines_congr (h : SpellAlike spellings? spellings?') (action : Action) :
    target.lines spellings? action = target.lines spellings?' action := by
  have hagrees : (target.printer spellings?).Agrees (target.printer spellings?') :=
    ⟨h target, print_congr target h⟩
  cases target with
  | javaScript => exact congrArg Except.ok (hagrees.javaScript_lines action)
  | python => exact hagrees.python_lines action
  | vba => exact hagrees.vba_lines action
  | ruby => exact hagrees.ruby_lines action

end Target

/-! ## The code of a program -/

section Code

variable {spellings? spellings?' : Option Spellings} (h : SpellAlike spellings? spellings?')
  (target : Target)

include h

theorem Statement.passage_congr (s : Statement) (place : Place) (openers : List Statement) :
    s.passage target spellings? place openers = s.passage target spellings?' place openers := by
  simp only [passage, target.lines_congr h]

namespace Block

theorem passages_congr (b : Block) (place : Place) (openers : List Statement) :
    b.passages target spellings? place openers = b.passages target spellings?' place openers := by
  induction b generalizing place openers with
  | nil => rfl
  | cons head body next ihbody ihnext =>
      simp only [passages, head.passage_congr h, ihbody, ihnext]

/-- Where all names are spelled alike, the code is the same. -/
theorem generate_congr (program : Block) (options : RenderOptions) :
    program.generate target options spellings? =
      program.generate target options spellings?' := by
  have hdocument : program.document target options spellings? =
      program.document target options spellings?' := by
    cases target with
    | javaScript => exact program.passages_congr h .javaScript {} []
    | ruby => exact program.passages_congr h .ruby {} []
    | python => simp only [document, importingPassages, passages_congr h]
    | vba => simp only [document, procedurePassages, passages_congr h]
  rw [generate, generate, codeLines, codeLines, hdocument]

end Block

end Code

/-- An empty table spells every name as it is, as no table does. -/
theorem spellAlike_nil : SpellAlike (some []) none :=
  fun _ word => Spellings.rename_nil word

end BlockCode
