/- # Numbers in the code of a program

The number literals in the slots of a program come into its code, where every target reads the same
numbers from them. A counting loop leaves two gaps: the end of a range in Python is the value behind
the last one, and a step of one is not written where the target counts by one by itself.

A numeral with a zero in front of further digits is left as it was typed, and no target but VBA has
to read it in decimal notation. Nothing is said of such a numeral here.
-/

import BlockCode.Proofs.Expr.Equality
import BlockCode.Proofs.Target.NumberLines
import BlockCode.Proofs.Target.Passages

namespace BlockCode

open Vba (functionName?)

variable {target : Target} {spellings? : Option Spellings}

namespace Statement

variable {s : Statement} {action : Action} {slot : Nat} {e : Expr}

/-- How the lines of a program show the numbers of an expression in a slot. -/
inductive ShowsNumbers (s : Statement) (target : Target) (spellings? : Option Spellings)
    (lines : List CodeLine) (slot : Nat) (e : Expr) : Prop
  /-- The target reads the numbers of all its literals in one line of code. -/
  | read (h : NumbersIn target (target.decimals e.numerals) lines)
  /-- The end of a range is computed, and the target reads the value behind the last one. -/
  | rangeEnd (hkind : s.kind.isCountingLoop = true) (hslot : slot = 2) (htarget : target = .python)
      (value : Int) (hvalue : e.literalInteger? = some value)
      (h : NumbersIn target [⟨(value + s.direction.signed 1).natAbs, 0⟩] lines)
  /-- The step is one, and the target counts by one where it is told nothing else. -/
  | unitStep (hkind : s.kind.isCountingLoop = true) (hslot : slot = 3)
      (hone : (target.printer spellings?).text e = "1") (hcounts : target.CountsByOne s.direction)

/-! ## Statements and their slots -/

/-- Only a line that closes a block is read with the header of the block. -/
theorem action_eq_of_not_closesBlock (h : s.kind.closesBlock = false) (target : Target)
    (loop? : Option StatementKind) (header? : Option Statement) :
    s.action target loop? header? = s.action target loop? none := by
  obtain ⟨id, kind, slots, isConstant, collapsed⟩ := s
  cases kind with
  | endIf | endWhile | endDoWhile | endFor | endFunction | endRegion => cases h
  | _ => rfl

/-- A statement with expressions is printed from its own slots. -/
theorem ReadBy.from_self (hs : s.Checked) (h : s.ReadBy target action)
    (hslot : slot ∈ s.expressionSlots) : action.From [s] := by
  cases h with
  | own hkind loop? header? h =>
      have hcloses := closesBlock_of_mem_expressionSlots hslot
      rw [action_eq_of_not_closesBlock hcloses] at h
      exact action_from hs (by simp) (by simp [hcloses]) h
  | closing hkind closing loop? hclosing h =>
      rw [Statement.action, hclosing] at h
      obtain ⟨_, ⟨⟩, h⟩ := bind_eq_ok_iff.mp h
      obtain ⟨condition, hcondition, ⟨⟩⟩ := bind_eq_ok_iff.mp h
      refine ⟨fun e he => ⟨s, .head _, ?_⟩, by simp [functionName?], by simp [Vba.label?]⟩
      obtain rfl := List.mem_singleton.mp he
      exact hs.mem_of_exprIn (n := 1) (by rw [hkind]; rfl) (by decide) (by rw [hkind]; decide)
        (by rw [hkind]; rfl) hcondition

/-- It is printed in one line unless it is a counting loop. -/
theorem ReadBy.isPlain (h : s.ReadBy target action) (hslot : slot ∈ s.expressionSlots)
    (hkind : s.kind.isCountingLoop = false) : action.isPlain = true := by
  cases h with
  | closing hloop closing loop? hclosing h =>
      rw [Statement.action, hclosing] at h
      obtain ⟨_, ⟨⟩, h⟩ := bind_eq_ok_iff.mp h
      obtain ⟨condition, -, ⟨⟩⟩ := bind_eq_ok_iff.mp h
      rfl
  | own hloop loop? header? h =>
      obtain ⟨id, kind, slots, isConstant, collapsed⟩ := s
      cases kind with
      | doWhile => exact absurd rfl hloop
      | assign | bulkAssign | increment | decrement | initializeArray =>
          obtain ⟨_, -, h⟩ := bind_eq_ok_iff.mp h
          obtain ⟨_, -, ⟨⟩⟩ := bind_eq_ok_iff.mp h
          rfl
      | output | ifThen | elseIf | whileLoop | defineFunction | callFunction =>
          obtain ⟨_, -, ⟨⟩⟩ := bind_eq_ok_iff.mp h
          rfl
      | forIncrement | forDecrement => cases hkind
      | otherwise | endIf | endWhile | endDoWhile | endFor | endFunction | breakLoop | region
      | endRegion => cases hslot

end Statement

theorem Expr.numerals_ungrouped (e : Expr) : e.ungrouped.numerals = e.numerals := by
  cases e <;> rfl

theorem Expr.mem_parts_of_ungrouped {e part : Expr} (h : part ∈ e.ungrouped.parts) :
    part ∈ e.parts := by
  cases e with
  | group => exact .tail _ h
  | _ => exact h

section Shown

variable (hspellings : ∀ spellings ∈ spellings?, spellings.Ascii) {s : Statement}

include hspellings

theorem Statement.shows_of_readSlot {slot : Nat} {exprs : List Expr}
    (h : s.readSlot slot = .ok exprs) {e : Expr} (he : e ∈ exprs) :
    Shows target.escapes ((target.printer spellings?).text e) e.numerals :=
  shows_print hspellings e (legible_of_readSlot h he).1

variable {program : Block} (hvalid : program.validate = []) (hs : s ∈ program.statements)

include hvalid hs

/-- What is made from the slots of a statement is printed with its numerals. -/
theorem Block.printable_of_from {action : Action} (h : action.From [s]) :
    action.Printable (target.printer spellings?) target.escapes := by
  have legible {e : Expr} (he : e ∈ action.exprs) : ∀ part ∈ e.parts, part.OwnLegible := by
    obtain ⟨_, hmem, hread⟩ := h.exprs e he
    exact (Statement.legible_of_mem_readableExprs hread).1
  refine ⟨fun e he => shows_print hspellings e (legible he), fun e he => ?_, fun name hname => ?_⟩
  · rw [← e.numerals_ungrouped]
    exact shows_print hspellings e.ungrouped fun part hpart =>
      legible he part (Expr.mem_parts_of_ungrouped hpart)
  · obtain ⟨_, hmem, hkind, rfl⟩ := h.name name hname
    obtain rfl := List.mem_singleton.mp hmem
    refine .of_quoteless (quote_notMem_name hspellings fun hquote => ?_)
    exact absurd (isWordChar_of_mem_functionName hvalid hs hkind _ hquote) (by decide)

variable {passages : List Passage} (h : s.RenderedIn target spellings? passages)

include h

omit hvalid hs in
/-- A counting loop shows the numbers of its four slots, but for the two gaps. -/
theorem Statement.RenderedIn.showsNumbers_of_isCountingLoop (hkind : s.kind.isCountingLoop = true)
    {slot : Nat} (hslot : slot ∈ s.expressionSlots) {exprs : List Expr}
    (hread : s.readSlot slot = .ok exprs) {e : Expr} (he : e ∈ exprs) :
    s.ShowsNumbers target spellings? (passages.flatMap Passage.lines) slot e := by
  obtain ⟨counter, first, last, step, hcounter, hfirst, hlast, hstep, hheader, hfooter⟩ :=
    h.exists_loop hkind
  have hloop := kind_of_isCountingLoop hkind
  have hlist (slot : Nat) : s.kind.isListSlot slot = false := by
    rcases hloop with hloop | hloop <;> rw [hloop] <;> exact Bool.and_false _
  have shown {slot : Nat} {e : Expr} (he : s.exprIn slot = .ok e) :
      Shows target.escapes ((target.printer spellings?).text e) e.numerals :=
    shows_of_readSlot hspellings (readSlot_of_exprIn (hlist slot) he) (.head _)
  obtain ⟨header, depth, hheader, hlines⟩ := hheader.exists_lines
  obtain ⟨footer, depth', hfooter, hlines'⟩ := hfooter.exists_lines
  have hshown : target.ShowsLoop (target.printer spellings?) s.direction counter first last step
      (passages.flatMap Passage.lines) := by
    refine Target.showsLoop ?_ hheader hfooter hlines hlines'
    simp only [List.forall_mem_cons]
    exact ⟨shown hcounter, shown hfirst, shown hlast, shown hstep, List.forall_mem_nil _⟩
  have single {e' : Expr} (he' : s.exprIn slot = .ok e') : e = e' := by
    rw [readSlot_of_exprIn (hlist slot) he'] at hread
    rw [← Except.ok.inj hread] at he
    exact List.mem_singleton.mp he
  have hbound : slot < 4 := by
    have harity : s.kind.arity? = some 4 := by
      rcases hloop with hloop | hloop <;> rw [hloop] <;> rfl
    have hregion : s.kind ≠ .region := by
      rcases hloop with hloop | hloop <;> rw [hloop] <;> decide
    rw [expressionSlots, StatementKind.expressionSlots_eq harity hregion, List.mem_filter,
      List.mem_range] at hslot
    exact hslot.1
  obtain rfl | rfl | rfl | rfl : slot = 0 ∨ slot = 1 ∨ slot = 2 ∨ slot = 3 := by omega
  · rw [single hcounter]
    exact .read hshown.counts
  · rw [single hfirst]
    exact .read hshown.starts
  · rw [single hlast]
    rcases hshown.ends with hread | ⟨htarget, value, hvalue, hread⟩
    · exact .read hread
    · exact .rangeEnd hkind rfl htarget value hvalue hread
  · rw [single hstep]
    rcases hshown.steps with hread | ⟨hone, hcounts⟩
    · exact .read hread
    · exact .unitStep hkind rfl hone hcounts

/-- Every statement shows the numbers in its slots. -/
theorem Statement.RenderedIn.showsNumbers {slot : Nat} (hslot : slot ∈ s.expressionSlots)
    {exprs : List Expr} (hread : s.readSlot slot = .ok exprs) {e : Expr} (he : e ∈ exprs) :
    s.ShowsNumbers target spellings? (passages.flatMap Passage.lines) slot e := by
  cases hkind : s.kind.isCountingLoop with
  | true => exact h.showsNumbers_of_isCountingLoop hspellings hkind hslot hread he
  | false =>
      obtain ⟨action, haction, hrendered⟩ := h.exists_readBy
      obtain ⟨own, depth, hown, hlines⟩ := hrendered.exists_lines
      have hchecked := Block.checked_of_validate hvalid s hs
      have hprintable : action.Printable (target.printer spellings?) target.escapes :=
        Block.printable_of_from hspellings hvalid hs (haction.from_self hchecked hslot)
      have hshown := Target.shownIn_lines hprintable (haction.isPlain hslot hkind) hown
      refine .read (hshown.numbersIn.mono (Target.decimals_subperm ?_) hlines)
      rcases haction.mem_exprs hchecked (mem_readableExprs hslot hread he) with
        hmem | ⟨hname, hprep⟩
      · exact (List.sublist_flatten_of_mem (List.mem_map_of_mem hmem)).subperm
      · -- The name of a function is not among the expressions, but there is no numeral in it.
        obtain ⟨span, word, hword, -⟩ := Block.exists_functionName hvalid hs hname
        obtain rfl := Except.ok.inj (hprep.symm.trans hword)
        exact List.nil_subperm

end Shown

/-! ## Programs -/

/-- A program without findings is rendered in every target, and the target reads the number literals
of all its slots in the code, but for the two gaps of counting loops. The one thing that can go
wrong is a counting loop that overflows. -/
theorem Block.renderWith_showsNumbers {program : Block} (hvalid : program.validate = [])
    (hlettered : ∀ spellings ∈ spellings?, spellings.Lettered)
    (hascii : ∀ spellings ∈ spellings?, spellings.Ascii)
    (hspelled : program.checkSpelled target spellings? = .ok ()) (options : RenderOptions) :
    (∃ lines, program.codeLines target options spellings? = .ok lines ∧
        program.renderWith target options spellings? =
          .ok (String.join (lines.map (CodeLine.layout options.indentWidth))) ∧
        ∀ s ∈ program.statements, ∀ slot ∈ s.expressionSlots, ∃ exprs,
          s.readSlot slot = .ok exprs ∧
            ∀ e ∈ exprs, s.ShowsNumbers target spellings? lines slot e) ∨
      (∃ operation, program.renderWith target options spellings? = .error (.overflow operation)) ∧
        program.OverflowsIn target := by
  have hwell := wellFormed_of_validate hvalid
  rw [renderWith_of_checkSpelled hvalid hspelled, generate, codeLines]
  rcases document_overflowsOnlyIf hlettered hwell.orderly (checked_of_validate hvalid) options with
    ⟨passages, hpassages⟩ | ⟨⟨operation, hoperation⟩, hoverflows⟩
  · rw [hpassages]
    refine .inl ⟨_, rfl, rfl, fun s hs slot hslot => ?_⟩
    obtain ⟨exprs, hread⟩ := (checked_of_validate hvalid s hs).reads slot hslot
    have hrendered := renderedIn_of_document hwell.orderly hwell.scoped hpassages s hs
    exact ⟨exprs, hread, fun e he =>
      hrendered.showsNumbers hascii hvalid hs hslot hread he⟩
  · rw [hoperation]
    exact .inr ⟨⟨operation, rfl⟩, hoverflows⟩

/-- A loop over quarters, which puts out its counter as a share of 100. -/
def countQuarters : Block :=
  .cons ⟨"loop", .forIncrement, ["x", "0", "1.5", "0.25"], false, false⟩
    (.cons ⟨"inner", .output, ["x * 100", "\"1\""], false, false⟩ .nil .nil)
    (.cons ⟨"end", .endFor, [], false, false⟩ .nil .nil)

/-- The loop has no finding, so its numbers are in its code. -/
theorem renderWith_showsNumbers_countQuarters :
    countQuarters.validate = [] ∧ countQuarters.checkSpelled .python none = .ok () ∧
      ((∃ lines, countQuarters.codeLines .python {} none = .ok lines ∧
          countQuarters.renderWith .python {} none =
            .ok (String.join (lines.map (CodeLine.layout ({} : RenderOptions).indentWidth))) ∧
          ∀ s ∈ countQuarters.statements, ∀ slot ∈ s.expressionSlots, ∃ exprs,
            s.readSlot slot = .ok exprs ∧ ∀ e ∈ exprs, s.ShowsNumbers .python none lines slot e) ∨
        (∃ operation, countQuarters.renderWith .python {} none = .error (.overflow operation)) ∧
          countQuarters.OverflowsIn .python) := by
  have hvalid : countQuarters.validate = [] := by decide +kernel
  have hspelled : countQuarters.checkSpelled .python none = .ok () := rfl
  exact ⟨hvalid, hspelled, Block.renderWith_showsNumbers hvalid (by simp) (by simp) hspelled {}⟩

/-- The step is in the line that closes the loop. -/
example : countQuarters.generate .python {} none =
    .ok "x = 0\nwhile x <= 1.5:\n    print(x * 100, \"1\")\n    x += 0.25\n" := by
  decide +kernel

/-- A loop from one to ten. -/
def countToTen : Block :=
  .cons ⟨"loop", .forIncrement, ["i", "1", "10", "1"], false, false⟩
    (.cons ⟨"inner", .output, ["i"], false, false⟩ .nil .nil)
    (.cons ⟨"end", .endFor, [], false, false⟩ .nil .nil)

/-- Its header holds a ten, and its code in Python has none. In JavaScript the two ones of the
header are printed as one. -/
theorem renderWith_omits_countToTen :
    countToTen.validate = [] ∧
      (∃ s ∈ countToTen.statements, s.kind = .forIncrement ∧ s.expressionSlots = [0, 1, 2, 3] ∧
        s.readSlot 1 = .ok [.number ⟨0, 1⟩ "1"] ∧ s.readSlot 2 = .ok [.number ⟨0, 2⟩ "10"] ∧
        s.readSlot 3 = .ok [.number ⟨0, 1⟩ "1"]) ∧
      (∃ lines, countToTen.codeLines .python {} none = .ok lines ∧
        countToTen.renderWith .python {} none = .ok "for i in range(1, 11):\n    print(i)\n" ∧
        ∀ line ∈ lines, ⟨10, 0⟩ ∉ Target.python.readNumbers line.text) ∧
      ∃ lines, countToTen.codeLines .javaScript {} none = .ok lines ∧
        countToTen.renderWith .javaScript {} none =
          .ok "for (let i = 1; i <= 10; i++) \x7b\n    console.log(i);\n\x7d\n" ∧
        (lines.flatMap fun line => Target.javaScript.readNumbers line.text) =
          [⟨1, 0⟩, ⟨10, 0⟩] := by
  have hpython : countToTen.codeLines .python {} none =
      .ok [{ text := "for i in range(1, 11):" }, { text := "print(i)", depth := 1 }] := by
    decide +kernel
  have hscript : countToTen.codeLines .javaScript {} none =
      .ok [{ text := "for (let i = 1; i <= 10; i++) \x7b" },
        { text := "console.log(i);", depth := 1 }, { text := "\x7d" }] := by
    decide +kernel
  have hvalid : countToTen.validate = [] := by decide +kernel
  have rendered {target : Target} {lines : List CodeLine} {code : String}
      (hspelled : countToTen.checkSpelled target none = .ok ())
      (hlines : countToTen.codeLines target {} none = .ok lines)
      (hcode : String.join (lines.map (CodeLine.layout 4)) = code) :
      countToTen.renderWith target {} none = .ok code := by
    rw [Block.renderWith_of_checkSpelled hvalid hspelled, Block.generate, hlines, ← hcode]
    rfl
  refine ⟨hvalid, ⟨_, .head _, rfl, rfl, ?_, ?_, ?_⟩,
    ⟨_, hpython, rendered rfl hpython (by decide), by decide⟩, _, hscript,
    rendered rfl hscript (by decide), by decide⟩
  all_goals decide +kernel

end BlockCode
