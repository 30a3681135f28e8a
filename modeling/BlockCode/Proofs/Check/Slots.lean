/- # Slots of checked programs

In a program without findings every statement has the slots of its kind, and every slot that
holds an expression reads. This is what a rendering relies on when it reads the slots again.
-/

import BlockCode.Proofs.Check.Structure
import BlockCode.Proofs.Outcome
import BlockCode.Target.Action

namespace BlockCode

/-- The statement has the slots of its kind, and those with expressions read. -/
structure Statement.Checked (s : Statement) : Prop where
  arity : ∀ n, s.kind.arity? = some n → s.slots.length = n
  reads : ∀ slot ∈ s.expressionSlots, ∃ exprs, s.readSlot slot = .ok exprs

namespace Line

variable {functions : List FunctionSignature} {line : Line}

theorem length_slots_of_slotCountFaults (h : line.slotCountFaults = []) {n : Nat}
    (hn : line.statement.kind.arity? = some n) : line.statement.slots.length = n := by
  rw [slotCountFaults, kind, hn] at h
  dsimp only at h
  split at h
  · assumption
  · cases h

/-- A slot without faults reads. -/
theorem readSlot_of_slotFaults {slot : Nat} (h : line.slotFaults functions slot = []) :
    ∃ exprs, line.statement.readSlot slot = .ok exprs := by
  rw [slotFaults] at h
  split at h
  · cases h
  · rename_i exprs hread
    exact ⟨exprs, hread⟩

/-- On a line without faults no expression slot has one. -/
theorem slotFaults_of_faults (h : line.faults functions = []) :
    ∀ slot ∈ line.statement.expressionSlots, line.slotFaults functions slot = [] := by
  rw [faults, List.append_eq_nil_iff, expressionFaults] at h
  have hexpressions := h.2
  split at hexpressions
  · exact List.flatMap_eq_nil_iff.mp hexpressions
  · rename_i hbrackets
    exact absurd (List.map_eq_nil_iff.mp hexpressions) hbrackets

/-- On a line without faults stands a checked statement. -/
theorem checked_of_faults (h : line.faults functions = []) : line.statement.Checked := by
  have hslots := slotFaults_of_faults h
  rw [faults, structureFaults] at h
  simp only [List.append_eq_nil_iff] at h
  obtain ⟨⟨⟨_, ⟨_, hcount⟩, _⟩, _⟩, _⟩ := h
  exact ⟨fun n hn => length_slots_of_slotCountFaults hcount hn,
    fun slot hslot => readSlot_of_slotFaults (hslots slot hslot)⟩

/-- On a line without faults, a slot of one expression that is written to reads as something that
may be written to there. -/
theorem exists_admits_of_faults (h : line.faults functions = []) {slot : Nat}
    (hslot : slot ∈ line.statement.expressionSlots)
    (hlist : line.statement.kind.isListSlot slot = false) {target : WriteTarget}
    (htarget : line.kind.writeTarget? slot = some target) :
    ∃ e, prepare (line.statement.slot slot) = .ok e ∧ target.admits e = true := by
  have hfaults := slotFaults_of_faults h slot hslot
  obtain ⟨exprs, hread⟩ := readSlot_of_slotFaults hfaults
  rw [slotFaults, hread, htarget] at hfaults
  rw [Statement.readSlot, hlist, if_neg Bool.false_ne_true] at hread
  obtain ⟨e, hprepare, rfl⟩ := map_eq_ok_iff.mp hread
  refine ⟨e, hprepare, ?_⟩
  rw [← Bool.not_eq_false]
  intro hrefused
  simp [hrefused] at hfaults

end Line

namespace Outline

/-- Every item has its line. -/
theorem exists_mem_linesFrom {before items : Outline} {item : OutlineItem} (h : item ∈ items) :
    ∃ line ∈ linesFrom before items, line.item = item := by
  induction items generalizing before with
  | nil => cases h
  | cons first items ih =>
      rw [linesFrom]
      rcases List.mem_cons.mp h with rfl | h
      · exact ⟨_, .head _, rfl⟩
      · obtain ⟨line, hline, hitem⟩ := ih h
        exact ⟨line, .tail _ hline, hitem⟩

/-- A line and what is around it make up the outline. -/
theorem all_of_mem_linesFrom {before items : Outline} {line : Line}
    (h : line ∈ linesFrom before items) : line.all = before ++ items := by
  induction items generalizing before with
  | nil => cases h
  | cons item items ih =>
      rw [linesFrom, List.mem_cons] at h
      rcases h with rfl | h
      · rfl
      · rw [ih h, List.append_assoc, List.singleton_append]

end Outline

namespace Block

variable {program : Block}

theorem functions_eq (program : Block) :
    program.outline.functions = program.statements.filterMap Statement.definition? := by
  rw [← map_statement_outline, List.filterMap_map]
  rfl

/-- In a program without findings no line has a fault. -/
theorem faults_of_validate (h : program.validate = []) :
    ∀ line ∈ program.outline.lines, line.faults program.outline.functions = [] := by
  rw [validate, Outline.findings, List.flatMap_eq_nil_iff] at h
  exact fun line hline => List.map_eq_nil_iff.mp (h line hline)

/-- Every statement stands on a line. -/
theorem exists_line_of_mem {s : Statement} (hs : s ∈ program.statements) :
    ∃ line ∈ program.outline.lines, line.statement = s := by
  rw [← map_statement_outline program] at hs
  obtain ⟨item, hitem, rfl⟩ := List.mem_map.mp hs
  obtain ⟨line, hline, rfl⟩ : ∃ line ∈ program.outline.lines, line.item = item :=
    Outline.exists_mem_linesFrom hitem
  exact ⟨line, hline, rfl⟩

/-- The statements of a program without findings are checked. -/
theorem checked_of_validate (h : program.validate = []) : ∀ s ∈ program.statements, s.Checked := by
  intro s hs
  obtain ⟨line, hline, rfl⟩ := exists_line_of_mem hs
  exact Line.checked_of_faults (faults_of_validate h line hline)

/-- A program without findings has the right form. -/
theorem wellFormed_of_validate (h : program.validate = []) : program.WellFormed := by
  apply forall_formed_faults_iff.mp
  intro line hline fault hfault
  rw [faults_of_validate h line hline] at hfault
  cases hfault

end Block

namespace Statement.Checked

variable {s : Statement} (h : s.Checked)

include h

/-- An expression slot of a checked statement reads. -/
theorem exprIn_eq {slot : Nat} (hslot : slot ∈ s.expressionSlots)
    (hlist : s.kind.isListSlot slot = false) :
    ∃ e, prepare (s.slot slot) = .ok e ∧ s.exprIn slot = .ok e := by
  obtain ⟨exprs, hread⟩ := h.reads slot hslot
  rw [readSlot, hlist, if_neg Bool.false_ne_true] at hread
  cases hprepare : prepare (s.slot slot) with
  | error e =>
      rw [hprepare] at hread
      cases hread
  | ok e =>
      refine ⟨e, rfl, ?_⟩
      rw [exprIn, hprepare]
      rfl

/-- So does a list slot. -/
theorem exprsIn_eq {slot : Nat} (hslot : slot ∈ s.expressionSlots)
    (hlist : s.kind.isListSlot slot = true) : ∃ exprs, s.exprsIn slot = .ok exprs := by
  obtain ⟨exprs, hread⟩ := h.reads slot hslot
  rw [readSlot, hlist, if_pos rfl] at hread
  refine ⟨exprs, ?_⟩
  rw [exprsIn, hread]
  rfl

end Statement.Checked

end BlockCode
