/- # Statements of one line

JavaScript, Ruby and VBA write every statement on one line, which shows by its text what it does to
the blocks. A line that closes a block is made with the header of the block: it tests the header's
condition or names the header's variable.
-/

import BlockCode.Proofs.Target.BlockMarks

namespace BlockCode

/-- The line that tests the condition of a loop with its test at the end. -/
def Target.doWhileFooter (target : Target) (spellings? : Option Spellings) (condition : Expr) :
    String :=
  let printer := target.printer spellings?
  match target with
  | .javaScript => "\x7d while " ++ JavaScript.condition printer condition ++ ";"
  | .python => "if not " ++ (printer.print condition).atom ++ ":"
  | .vba => "Loop While " ++ printer.text condition
  | .ruby => "end while " ++ printer.text condition

/-- The statement is rendered to the one line. This is not empty, and its text shows the part in the
blocks that a statement of the kind has. -/
structure Statement.Shows (target : Target) (spellings? : Option Spellings) (depth : Nat)
    (around : List StatementKind) (header? : Option Statement) (s : Statement) (line : CodeLine) :
    Prop where
  emits : s.Emits target spellings? depth around header? [line]
  depth : line.depth = depth
  text : line.text ≠ ""
  mark : target.blockMark line.text = s.kind.blockMark target

/-- A statement writes to what its first slot is read as. -/
theorem Statement.exprIn_of_written {s : Statement} {target : Target}
    {loop? : Option StatementKind} {header? : Option Statement} {action : Action}
    (h : s.action target loop? header? = .ok action) {e : Expr} (he : e ∈ action.written?) :
    s.kind ∈ [.assign, .increment, .decrement, .initializeArray, .bulkAssign, .forIncrement,
      .forDecrement] ∧ s.exprIn 0 = .ok e := by
  rw [Statement.action] at h
  cases hkind : s.kind with
  | assign | bulkAssign | increment | decrement =>
      rw [hkind] at h
      obtain ⟨left, hleft, h⟩ := bind_eq_ok_iff.mp h
      obtain ⟨right, -, ⟨⟩⟩ := bind_eq_ok_iff.mp h
      cases he
      exact ⟨by simp, hleft⟩
  | initializeArray =>
      rw [hkind] at h
      obtain ⟨items, -, h⟩ := bind_eq_ok_iff.mp h
      obtain ⟨left, hleft, ⟨⟩⟩ := bind_eq_ok_iff.mp h
      cases he
      exact ⟨by simp, hleft⟩
  | forIncrement | forDecrement =>
      rw [hkind] at h
      obtain ⟨counter, hcounter, h⟩ := bind_eq_ok_iff.mp h
      obtain ⟨first, -, h⟩ := bind_eq_ok_iff.mp h
      obtain ⟨last, -, h⟩ := bind_eq_ok_iff.mp h
      obtain ⟨step, -, ⟨⟩⟩ := bind_eq_ok_iff.mp h
      cases he
      exact ⟨by simp, hcounter⟩
  | otherwise | endIf | endWhile | doWhile | endFunction | breakLoop | region =>
      rw [hkind] at h
      cases h
      cases he
  | output | ifThen | elseIf | whileLoop | endFor | defineFunction | callFunction | endRegion =>
      rw [hkind] at h
      obtain ⟨_, -, ⟨⟩⟩ := bind_eq_ok_iff.mp h
      cases he
  | endDoWhile =>
      rw [hkind] at h
      obtain ⟨_, -, h⟩ := bind_eq_ok_iff.mp h
      obtain ⟨_, -, ⟨⟩⟩ := bind_eq_ok_iff.mp h
      cases he

section

variable {target : Target} {spellings? : Option Spellings} {depth : Nat}
  {around : List StatementKind} {header? : Option Statement} {header s : Statement}
  {line : CodeLine} {lines : List CodeLine}

namespace Statement.Emits

/-- The line at the end of a loop tests the condition of the loop's header. -/
theorem footer (htarget : target ≠ .python)
    (h : s.Emits target spellings? depth around (some header) [line])
    (hkind : s.kind = .endDoWhile) :
    ∃ condition, prepare (header.slot 0) = .ok condition ∧
      line.text = target.doWhileFooter spellings? condition := by
  obtain ⟨action, own, haction, hown, hline⟩ := h
  rw [Statement.action, hkind] at haction
  obtain ⟨_, ⟨⟩, haction⟩ := bind_eq_ok_iff.mp haction
  obtain ⟨condition, hcondition, ⟨⟩⟩ := bind_eq_ok_iff.mp haction
  refine ⟨condition, mapError_eq_ok_iff.mp hcondition, ?_⟩
  cases target with
  | python => exact absurd rfl htarget
  | javaScript | vba | ruby =>
      cases hown
      cases hline
      rfl

/-- The end of a counting loop names the variable of the loop's header. -/
theorem next (h : s.Emits .vba spellings? depth around (some header) [line])
    (hkind : s.kind = .endFor) :
    ∃ counter, prepare (header.slot 0) = .ok counter ∧
      line.text = "Next " ++ (Target.vba.printer spellings?).text counter := by
  obtain ⟨action, own, haction, hown, hline⟩ := h
  rw [Statement.action, hkind] at haction
  obtain ⟨footer, hfooter, ⟨⟩⟩ := bind_eq_ok_iff.mp haction
  obtain ⟨_, ⟨⟩, hfooter⟩ := bind_eq_ok_iff.mp hfooter
  obtain ⟨counter, hcounter, ⟨⟩⟩ := bind_eq_ok_iff.mp hfooter
  cases hown
  cases hline
  exact ⟨counter, mapError_eq_ok_iff.mp hcounter, rfl⟩

theorem start (h : s.Emits .vba spellings? depth around none [line])
    (hkind : s.kind.isCountingLoop = true) :
    ∃ counter rest, prepare (s.slot 0) = .ok counter ∧
      line.text = "For " ++ (Target.vba.printer spellings?).text counter ++ " = " ++ rest := by
  obtain ⟨action, own, haction, hown, hline⟩ := h
  obtain ⟨counter, first, last, step, hcounter, -, -, -, rfl⟩ :=
    Statement.exists_count_of_action hkind haction
  obtain ⟨text, htext, ⟨⟩⟩ := bind_eq_ok_iff.mp hown
  cases hline
  obtain ⟨rest, rfl⟩ := Vba.exists_text_of_loopHeader htext
  refine ⟨counter, rest, mapError_eq_ok_iff.mp hcounter, ?_⟩
  simp only [CodeLine.indent, String.append_assoc]

/-- A break says which kind of loop it leaves. -/
theorem exit (h : s.Emits .vba spellings? depth around header? [line])
    (hkind : s.kind = .breakLoop) :
    line.text = "Exit For" ↔
      ∃ loop, around.find? StatementKind.isLoop = some loop ∧ loop.isCountingLoop = true := by
  obtain ⟨action, own, haction, hown, hline⟩ := h
  rw [Statement.action, hkind] at haction
  cases haction
  cases hown
  cases hline
  cases around.find? StatementKind.isLoop with
  | none => simp [CodeLine.indent]
  | some loop => cases hloop : loop.isCountingLoop <;> simp [CodeLine.indent, hloop]

end Statement.Emits

namespace Block

variable {program : Block}

/-- In a program without findings every statement is rendered to such a line, with any spellings
that are supplied for it. -/
theorem exists_shows (htarget : target ≠ .python) (hvalid : program.validate = [])
    (hspellings : ∀ spellings ∈ spellings?, spellings.SuppliedFor program)
    (hs : s ∈ program.statements) (hheader : ∀ header ∈ header?, header ∈ program.statements)
    (hfits : s.kind.closesBlock = true → s.kind.Follows (header?.map Statement.kind))
    (h : s.Emits target spellings? depth around header? lines) :
    ∃ line, lines = [line] ∧ s.Shows target spellings? depth around header? line := by
  have hemits := h
  obtain ⟨action, own, haction, hown, rfl⟩ := h
  have hfree : ∀ spellings ∈ spellings?, ∀ entry ∈ spellings, StartsFree entry.2 :=
    fun spellings hmem => (hspellings spellings hmem).startsFree
  have hchecked := checked_of_validate hvalid
  have hfrom := Statement.action_from (hchecked s hs)
    (fun header hmem => hchecked header (hheader header hmem)) hfits haction
  have hsources : ∀ source ∈ s :: header?.toList, source ∈ program.statements := by
    rw [List.forall_mem_cons]
    exact ⟨hs, fun header hmem => hheader header (Option.mem_toList.mp hmem)⟩
  have hwritten : ∀ e ∈ action.written?, StartsFree ((target.printer spellings?).text e) := by
    intro e he
    obtain ⟨hkind, hread⟩ := Statement.exprIn_of_written haction he
    exact startsFree_text hvalid hfree hs hkind hread
  have hname : ∀ name ∈ Vba.functionName? action,
      StartsFree ((target.printer spellings?).name name) := by
    intro name hname
    obtain ⟨source, hsource, hkind, rfl⟩ := hfrom.name name hname
    exact startsFree_functionName hvalid hfree (hsources source hsource) hkind
  have hexprs : target = .ruby → ∀ e ∈ action.exprs,
      ¬ StartsIn '#' ((Target.ruby.printer spellings?).text e) ∧
        ¬ EndsIn '|' ((Target.ruby.printer spellings?).text e) := by
    intro _ e he
    obtain ⟨source, -, hread⟩ := hfrom.exprs e he
    have hlegible := (Statement.legible_of_mem_readableExprs hread).1
    exact ⟨Ruby.not_startsIn_print hfree e hlegible, Target.not_endsIn_print (by decide)
      (fun spellings hmem => (hspellings spellings hmem).noneEndsIn (by decide) (by decide)) e
      hlegible⟩
  obtain ⟨line, rfl, hline, htext, hmark⟩ :=
    Target.exists_line htarget hwritten hname hexprs hown
  have hkind := Statement.kind_of_action haction
  refine ⟨line.indent depth, rfl, hemits, ?_, htext, hkind ▸ hmark⟩
  rw [CodeLine.indent, hline, Nat.add_zero]

end Block

end

end BlockCode
