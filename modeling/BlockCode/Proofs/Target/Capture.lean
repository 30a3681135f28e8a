/- # Names that generated code relies on

Generated code refers to functions and modules of the target's library, and in one target it
defines a procedure of its own. A name of the program that is printed like one of them would hide
it. Names and their spellings are never reserved words, so they hide nothing that is reserved.
What generated code relies on is reserved, but for two names: the conversion of numbers in
JavaScript, and the procedure around a program in VBA, which the user names.
-/

import BlockCode.Proofs.Names.Reserved
import BlockCode.Proofs.Target.AsciiNames

namespace BlockCode

open Vba (functionName?)

/-- The names that the code of the target refers to or defines, whatever the program is. -/
def Target.helperNames (target : Target) (options : RenderOptions) : List String :=
  match target with
  | .javaScript => ["console", "Math", "Number"]
  | .python => ["print", "len", "range", "random", "format"]
  | .vba =>
    ["Debug", "Int", "Rnd", "LBound", "UBound", "Array", "WorksheetFunction", Vba.fillIndex,
      options.entryPoint]
  | .ruby => ["puts", "rand"]

/-- The target takes both words for one name. -/
def Target.SameName (target : Target) (word word' : String) : Prop :=
  match target with
  | .vba => lowered word = lowered word'
  | _ => word = word'

instance (target : Target) (word word' : String) : Decidable (target.SameName word word') :=
  match target with
  | .vba => inferInstanceAs (Decidable (lowered word = lowered word'))
  | .javaScript | .python | .ruby => inferInstanceAs (Decidable (word = word'))

/-- What is printed for a name: the whole, and each of its segments. -/
def ExprPrinter.identifiers (p : ExprPrinter) (word : String) : List String :=
  p.name word :: p.segments word

/-- What is printed for the names that an action is about. -/
def Action.identifiers (p : ExprPrinter) (action : Action) : List String :=
  ((functionName? action).toList ++
    (action.exprs.flatMap Expr.parts).filterMap Expr.ownName?).flatMap p.identifiers

/-- What the code of a target relies on is reserved, except for a conversion in JavaScript and the
procedure around a program in VBA. -/
theorem isReserved_of_mem_helperNames {target : Target} {options : RenderOptions} {helper : String}
    (h : helper ∈ target.helperNames options) :
    isReserved helper = true ∨ (target = .javaScript ∧ helper = "Number") ∨
      (target = .vba ∧ helper = options.entryPoint) := by
  cases target with
  | javaScript =>
      have hall : ∀ helper ∈ ["console", "Math", "Number"],
          isReserved helper = true ∨ helper = "Number" := by
        decide +kernel
      exact (hall helper h).imp_right fun hnumber => .inl ⟨rfl, hnumber⟩
  | python =>
      have hall : ∀ helper ∈ ["print", "len", "range", "random", "format"],
          isReserved helper = true := by
        decide +kernel
      exact .inl (hall helper h)
  | vba =>
      have hall : ∀ helper ∈ ["Debug", "Int", "Rnd", "LBound", "UBound", "Array",
          "WorksheetFunction", Vba.fillIndex], isReserved helper = true := by
        decide +kernel
      rcases List.mem_append.mp (show helper ∈ ["Debug", "Int", "Rnd", "LBound", "UBound", "Array",
        "WorksheetFunction", Vba.fillIndex] ++ [options.entryPoint] from h) with h | h
      · exact .inl (hall helper h)
      · exact .inr (.inr ⟨rfl, List.mem_singleton.mp h⟩)
  | ruby =>
      have hall : ∀ helper ∈ ["puts", "rand"], isReserved helper = true := by
        decide +kernel
      exact .inl (hall helper h)

/-- A word that is not reserved is taken for none of the reserved names. -/
theorem Target.SameName.isReserved_eq {target : Target} {word word' : String}
    (h : target.SameName word word') : isReserved word = isReserved word' := by
  cases target with
  | vba => exact isReserved_congr h
  | javaScript | python | ruby => exact congrArg isReserved h

/-! ## Printed names -/

/-- Free segments make a free name. -/
theorem isReserved_intercalate {segments : List String}
    (h : ∀ segment ∈ segments, isReserved segment = false) :
    isReserved (".".intercalate segments) = false := by
  cases segments with
  | nil => decide
  | cons segment segments =>
      cases segments with
      | nil => exact h segment (.head _)
      | cons next segments =>
          rw [String.intercalate_cons_cons]
          exact isReserved_eq_false_of_mem (c := '.') (by simp) (.inr rfl)

section Printed

variable {target : Target} {spellings? : Option Spellings}
  (hspellings : ∀ spellings ∈ spellings?, spellings.Free)

include hspellings

/-- What is printed for a free name is not reserved. -/
theorem isReserved_of_mem_identifiers {word : String} (hword : FreeName word) :
    ∀ name ∈ (target.printer spellings?).identifiers word, isReserved name = false := by
  have hsegments : ∀ segment ∈ (target.printer spellings?).segments word,
      isReserved segment = false := by
    exact ExprPrinter.forall_mem_segments (P := fun text => isReserved text = false) _ hspellings
      hword
  rw [ExprPrinter.identifiers, List.forall_mem_cons, ExprPrinter.name_eq_intercalate]
  exact ⟨isReserved_intercalate hsegments, hsegments⟩

omit hspellings in
/-- The names in what a statement reads are free. -/
theorem Statement.freeName_of_mem_readableExprs {s : Statement} {e part : Expr}
    (he : e ∈ s.readableExprs) (hpart : part ∈ e.parts) {word : String}
    (hname : part.ownName? = some word) : FreeName word := by
  obtain ⟨hlegible, hnames⟩ := Statement.legible_of_mem_readableExprs he
  exact freeName_of_reservedSegment?
    (nameable_of_checkNames hnames hpart (hlegible part hpart) hname).2

namespace Block

variable {program : Block} {options : RenderOptions}

omit hspellings in
/-- The name of a function is free as it is typed. -/
theorem freeName_of_functionName (hvalid : program.validate = []) {s : Statement}
    (hs : s ∈ program.statements) (hkind : s.kind = .defineFunction ∨ s.kind = .callFunction) :
    FreeName (s.plainSlot 0) := by
  obtain ⟨span, word, hread, hmem⟩ := exists_functionName hvalid hs hkind
  have hlexeme : IsLexeme .name word :=
    (Statement.legible_of_mem_readableExprs hmem).1 _ (Expr.mem_parts_self _)
  exact freeName_of_map_foldWidth hlexeme
    (Statement.freeName_of_mem_readableExprs hmem (Expr.mem_parts_self _) rfl)
    (map_foldWidth_trim hread)

/-- What is printed for the names of a program without findings is not reserved. -/
theorem isReserved_of_mem_actionIdentifiers (hvalid : program.validate = []) {action : Action}
    {sources : List Statement} (hfrom : action.From sources)
    (hsources : ∀ s ∈ sources, s ∈ program.statements) :
    ∀ name ∈ action.identifiers (target.printer spellings?), isReserved name = false := by
  intro name hname
  obtain ⟨word, hword, hname⟩ := List.mem_flatMap.mp hname
  refine isReserved_of_mem_identifiers hspellings ?_ name hname
  rcases List.mem_append.mp hword with hword | hword
  · obtain ⟨s, hs, hkind, rfl⟩ := hfrom.name word (Option.mem_toList.mp hword)
    exact freeName_of_functionName hvalid (hsources s hs) hkind
  · obtain ⟨part, hpart, hword⟩ := List.mem_filterMap.mp hword
    obtain ⟨e, he, hpart⟩ := List.mem_flatMap.mp hpart
    obtain ⟨s, -, he⟩ := hfrom.exprs e he
    exact Statement.freeName_of_mem_readableExprs he hpart hword

end Block

end Printed

/-! ## Lines of a program -/

/-- The line is made from a statement of the program, and a name in it is taken for one that the
code relies on only if that is not reserved. -/
def CodeLine.Captureless (program : Block) (target : Target) (options : RenderOptions)
    (spellings? : Option Spellings) (line : CodeLine) : Prop :=
  ∃ s ∈ program.statements, ∃ depth loop? header? action own,
    s.action target loop? header? = .ok action ∧
      target.lines spellings? action = .ok own ∧
      line ∈ own.map (.indent depth) ∧
      ∀ name ∈ action.identifiers (target.printer spellings?),
        ∀ helper ∈ target.helperNames options, target.SameName name helper →
          (target = .javaScript ∧ helper = "Number") ∨
            (target = .vba ∧ helper = options.entryPoint ∧ isReserved helper = false)

/-- The line comes from no statement: it frames the program or fills an empty body. -/
def CodeLine.IsFixed (target : Target) (options : RenderOptions) (line : CodeLine) : Prop :=
  line ∈ target.frameLines options ∨
    ∃ kind depth, ∃ filler ∈ target.emptyBody? kind, line = filler.indent depth

namespace Block

variable {program : Block} {target : Target} {options : RenderOptions}
  {spellings? : Option Spellings}

/-- The lines of a program without findings capture nothing that is reserved. -/
theorem captureless_codeLines (hspellings : ∀ spellings ∈ spellings?, spellings.Free)
    (hvalid : program.validate = []) {lines : List CodeLine}
    (h : program.codeLines target options spellings? = .ok lines) :
    ∀ line ∈ lines,
      line.IsFixed target options ∨ line.Captureless program target options spellings? := by
  have hform := wellFormed_of_validate hvalid
  have hchecked := checked_of_validate hvalid
  refine forall_mem_codeLines (Q := (· ∈ program.statements)) hform.orderly hform.scoped
    (fun line hline => .inl (.inl hline))
    (fun kind depth filler hfiller => .inl (.inr ⟨kind, depth, filler, hfiller, rfl⟩)) ?_
    (fun _ hs => hs) h
  intro depth around header? s lines hs hheader hfits hemits line hline
  obtain ⟨action, own, haction, hown, rfl⟩ := hemits
  refine .inr ⟨s, hs, depth, _, header?, action, own, haction, hown, hline, ?_⟩
  intro name hname helper hhelper hsame
  have hfrom := Statement.action_from (hchecked s hs)
    (fun header hmem => hchecked header (hheader header hmem)) hfits haction
  have hsources : ∀ source ∈ s :: header?.toList, source ∈ program.statements := by
    rw [List.forall_mem_cons]
    exact ⟨hs, fun header hmem => hheader header (Option.mem_toList.mp hmem)⟩
  have hfree : isReserved helper = false := by
    rw [← hsame.isReserved_eq]
    exact isReserved_of_mem_actionIdentifiers hspellings hvalid hfrom hsources name hname
  rcases isReserved_of_mem_helperNames hhelper with hreserved | hnumber | ⟨htarget, hentry⟩
  · rw [hfree] at hreserved
    cases hreserved
  · exact .inl hnumber
  · exact .inr ⟨htarget, hentry, hfree⟩

/-- Whatever a program is, its names hide nearly nothing that its code relies on. Code is laid out
from lines that are fixed for the target and lines that are made from statements. What those print
for a name is none of the names that the code relies on, but for the conversion of numbers in
JavaScript, and in VBA for the procedure around the program, where the user has not named that by
a reserved word. This is so without spellings, and with the spellings of any speller. -/
theorem renderWith_captureless
    (hspellings : ∀ spellings ∈ spellings?, spellings = [] ∨
      ∃ speller, (({} : SpellingSession).spellingsFor speller program).1 = .ok spellings)
    {code : String} (h : program.renderWith target options spellings? = .ok code) :
    ∃ lines, program.codeLines target options spellings? = .ok lines ∧
      code = String.join (lines.map (CodeLine.layout options.indentWidth)) ∧
      ∀ line ∈ lines,
        line.IsFixed target options ∨ line.Captureless program target options spellings? := by
  have hnone : Spellings.Free [] := List.forall_mem_nil _
  have hfree : ∀ spellings ∈ spellings?, spellings.Free := by
    intro spellings hmem
    rcases hspellings spellings hmem with rfl | ⟨speller, hresolve⟩
    · exact hnone
    · exact @free_of_resolveProgram {} hnone speller program _ (mapError_eq_ok_iff.mp hresolve)
  obtain ⟨hvalid, lines, hlines, hcode⟩ := exists_codeLines_of_renderWith h
  exact ⟨lines, hlines, hcode, captureless_codeLines hfree hvalid hlines⟩

/-- A variable with a foreign name and its binary digits. -/
def foreignDigits : Block :=
  .ofNodes [
    ⟨⟨"1", .assign, ["値", "5"], false, false⟩, .nil⟩,
    ⟨⟨"2", .output, ["Binary(値)"], false, false⟩, .nil⟩]

theorem renderWith_captureless_foreignDigits :
    ∃ spellings code,
      (({} : SpellingSession).spellingsFor codePointSpeller foreignDigits).1 = .ok spellings ∧
        foreignDigits.renderWith .vba {} (some spellings) = .ok code ∧
        ∃ lines, foreignDigits.codeLines .vba {} (some spellings) = .ok lines ∧
          code = String.join (lines.map (CodeLine.layout ({} : RenderOptions).indentWidth)) ∧
          ∀ line ∈ lines,
            line.IsFixed .vba {} ∨
              line.Captureless foreignDigits .vba {} (some spellings) := by
  have hresolve : (({} : SpellingSession).spellingsFor codePointSpeller foreignDigits).1 =
      .ok [("値", "v_u5024")] := by
    decide +kernel
  have hcode : foreignDigits.renderWith .vba {} (some [("値", "v_u5024")]) =
      .ok ("Sub Main()\n    v_u5024 = 5\n    Debug.Print WorksheetFunction.Dec2Bin(v_u5024)\n"
        ++ "End Sub\n") := by
    decide +kernel
  refine ⟨_, _, hresolve, hcode, renderWith_captureless ?_ hcode⟩
  rintro _ ⟨⟩
  exact .inr ⟨_, hresolve⟩

/-- A variable named like the conversion that binary digits are put out with in JavaScript. -/
def hiddenConversion : Block :=
  .ofNodes [
    ⟨⟨"1", .assign, ["Number", "1"], false, false⟩, .nil⟩,
    ⟨⟨"2", .output, ["Binary(5)"], false, false⟩, .nil⟩]

/-- A function named like the procedure around a program in VBA. -/
def secondEntry : Block :=
  .ofNodes [
    ⟨⟨"1", .defineFunction, ["main", ""], false, false⟩, .nil⟩,
    ⟨⟨"2", .endFunction, [], false, false⟩, .nil⟩]

/-- Both have no findings and are rendered. In the one, the assignment hides the conversion that the
next line calls; in the other, two procedures have one name. -/
theorem renderWith_captures :
    (hiddenConversion.validate = [] ∧
      hiddenConversion.renderWith .javaScript {} none =
        .ok "Number = 1;\nconsole.log(Number(5).toString(2));\n" ∧
      (∃ s ∈ hiddenConversion.statements, ∃ action, s.action .javaScript none none = .ok action ∧
        "Number" ∈ action.identifiers (Target.javaScript.printer none)) ∧
      ∃ helper ∈ Target.javaScript.helperNames {},
        Target.javaScript.SameName "Number" helper) ∧
    (secondEntry.validate = [] ∧
      secondEntry.renderWith .vba {} none =
        .ok "Sub main()\nEnd Sub\n\nSub Main()\nEnd Sub\n" ∧
      (∃ s ∈ secondEntry.statements, ∃ action, s.action .vba none none = .ok action ∧
        "main" ∈ action.identifiers (Target.vba.printer none)) ∧
      ∃ helper ∈ Target.vba.helperNames {}, Target.vba.SameName "main" helper) := by
  have mentions {s : Statement} {target : Target} {names : List String} {name : String}
      (haction : (s.action target none none).map (Action.identifiers (target.printer none)) =
        .ok names) (hname : name ∈ names) :
      ∃ action, s.action target none none = .ok action ∧
        name ∈ action.identifiers (target.printer none) := by
    obtain ⟨action, hself, rfl⟩ := map_eq_ok_iff.mp haction
    exact ⟨action, hself, hname⟩
  refine ⟨⟨by decide +kernel, by decide +kernel, ⟨_, .head _, ?_⟩, "Number", by decide, by decide⟩,
    by decide +kernel, by decide +kernel, ⟨_, .head _, ?_⟩, "Main", by decide, by decide⟩
  · exact @mentions _ _ ["Number", "Number"] _ (by decide +kernel) (.head _)
  · exact @mentions _ _ ["main", "main"] _ (by decide +kernel) (.head _)

end Block

end BlockCode
