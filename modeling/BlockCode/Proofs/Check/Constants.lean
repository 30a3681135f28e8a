/- # Constants are kept

Whether a line writes to a constant is told from the text of its first slot, up to the first square
bracket. What the line writes to when it runs is what the slot reads as, and reading folds
full-width forms. Where no name is typed in them, neither in the declaration nor below it, the two
are the same, and in a program without findings no line below a declaration writes to the constant.
-/

import BlockCode.Proofs.Check.Shape
import BlockCode.Proofs.Expr.Width

namespace BlockCode

namespace StatementKind

/-- The kinds of statements that write to a variable in their first slot. -/
def writing : List StatementKind :=
  [.assign, .initializeArray, .bulkAssign, .increment, .decrement, .forIncrement, .forDecrement]

/-- A statement that writes has a first slot, and the slot has to hold one expression that can be
written to. -/
theorem mem_writing {kind : StatementKind} (h : kind ∈ writing) :
    (kind.isAssignment || kind.isCountingLoop) = true ∧ kind.isListSlot 0 = false ∧
      (kind.writeTarget? 0).isSome = true ∧
        ∃ n, kind.arity? = some n ∧ 0 ∈ kind.expressionSlots n := by
  simp only [writing, List.mem_cons, List.not_mem_nil, or_false] at h
  rcases h with rfl | rfl | rfl | rfl | rfl | rfl | rfl <;>
    exact ⟨rfl, rfl, rfl, _, rfl, by decide⟩

end StatementKind

/-- What is admitted where something is written to has a variable to write to. -/
theorem WriteTarget.isSome_assignableName? {target : WriteTarget} {e : Expr}
    (h : target.admits e = true) : e.assignableName?.isSome = true := by
  cases target with
  | element => exact h
  | name =>
      cases e with
      | name => rfl
      | _ => cases h

namespace Statement

variable {s : Statement} {word : String}

/-- The variable that the statement writes to: that of its first slot, as the slot reads. -/
def assignedName? (s : Statement) : Option String :=
  (prepare (s.slot 0)).toOption.bind Expr.assignableName?

/-- The name that the statement writes to is typed without full-width forms. -/
def AssignsInHalfWidth (s : Statement) : Prop :=
  HalfWidth ((s.slot 0).toList.takeWhile (· != '['))

instance (s : Statement) : Decidable s.AssignsInHalfWidth :=
  inferInstanceAs (Decidable (HalfWidth _))

theorem assignedName?_eq_some_iff :
    s.assignedName? = some word ↔
      ∃ e, prepare (s.slot 0) = .ok e ∧ e.assignableName? = some word := by
  rw [assignedName?, Option.bind_eq_some_iff]
  refine exists_congr fun e => and_congr_left fun _ => ?_
  cases prepare (s.slot 0) <;> simp [Except.toOption]

/-- The name that is told from the text is the name that is read. -/
theorem writtenName?_eq_some (hkind : s.kind ∈ StatementKind.writing)
    (hwidth : s.AssignsInHalfWidth) (h : s.assignedName? = some word) :
    s.writtenName? = some word := by
  obtain ⟨e, hread, hword⟩ := assignedName?_eq_some_iff.mp h
  obtain ⟨⟨c, tail, hcons, -⟩, htext⟩ := map_foldWidth_of_assignableName? hread hword
  rw [hwidth.takeWhile_eq, hwidth.map_foldWidth_trimChars] at htext
  rw [writtenName?, if_pos (StatementKind.mem_writing hkind).1]
  dsimp only
  rw [htext, if_neg (by simp [hcons]), String.ofList_toList]

end Statement

namespace Line

variable {functions : List FunctionSignature} {line : Line}

/-- On a line without faults, what a statement that writes has in its first slot can be written
to. -/
theorem exists_assignedName? (h : line.faults functions = [])
    (hkind : line.kind ∈ StatementKind.writing) :
    ∃ word, line.statement.assignedName? = some word := by
  obtain ⟨-, hlist, htarget, n, harity, hslot⟩ := StatementKind.mem_writing hkind
  have hchecked := checked_of_faults h
  have hfirst : 0 ∈ line.statement.expressionSlots := by
    rw [Statement.expressionSlots, hchecked.arity n harity]
    exact hslot
  obtain ⟨target, htarget⟩ := Option.isSome_iff_exists.mp htarget
  obtain ⟨e, hread, hadmits⟩ := exists_admits_of_faults h hfirst hlist htarget
  obtain ⟨word, hword⟩ := Option.isSome_iff_exists.mp (WriteTarget.isSome_assignableName? hadmits)
  exact ⟨word, Statement.assignedName?_eq_some_iff.mpr ⟨e, hread, hword⟩⟩

/-- A line without faults does not write to what a line above it declares constant. -/
theorem writtenName?_ne_of_mem_before (h : line.faults functions = []) {earlier : OutlineItem}
    (hearlier : earlier ∈ line.before) {word : String}
    (hdeclares : earlier.statement.declaredConstant? = some word) :
    line.statement.writtenName? ≠ some word := by
  intro hwrites
  rw [faults, List.append_eq_nil_iff, List.append_eq_nil_iff] at h
  have hconstant := h.1.2
  rw [constantFaults, hwrites] at hconstant
  dsimp only at hconstant
  have hany : line.before.any (fun item => item.statement.declaredConstant? == some word) = true :=
    List.any_eq_true.mpr ⟨earlier, hearlier, by rw [hdeclares]; exact beq_self_eq_true _⟩
  rw [if_pos hany] at hconstant
  cases hconstant

end Line

namespace Outline

/-- The lines of an outline are those of its items, in their order. -/
theorem map_item_linesFrom (before items : Outline) :
    (linesFrom before items).map Line.item = items := by
  induction items generalizing before with
  | nil => rfl
  | cons item items ih => rw [linesFrom, List.map_cons, ih]

end Outline

namespace Block

variable {program : Block}

theorem exists_line_of_getElem? {i : Nat} {s : Statement} (h : program.statements[i]? = some s) :
    ∃ line, program.outline.lines[i]? = some line ∧ line.statement = s := by
  rw [← map_statement_outline, ← Outline.map_item_linesFrom [] program.outline, List.map_map,
    List.getElem?_map, Option.map_eq_some_iff] at h
  exact h

/-- Constants are kept. In a program without findings, a line that declares a constant and a line
below it that writes have each a variable that they write to, and where both names are typed without
full-width forms the variables are not the same. -/
theorem validate_keeps_constants (h : program.validate = []) {i j : Nat} (hij : i < j)
    {s t : Statement} (hs : program.statements[i]? = some s) (ht : program.statements[j]? = some t)
    (hassign : s.kind = .assign) (hconstant : s.isConstant = true)
    (hwrites : t.kind ∈ StatementKind.writing) (hwidth : s.AssignsInHalfWidth)
    (hwidth' : t.AssignsInHalfWidth) :
    ∃ word word', s.assignedName? = some word ∧ t.assignedName? = some word' ∧ word ≠ word' := by
  obtain ⟨declaration, hdeclaration, rfl⟩ := exists_line_of_getElem? hs
  obtain ⟨line, hline, rfl⟩ := exists_line_of_getElem? ht
  have hkind : declaration.kind ∈ StatementKind.writing := by
    rw [Line.kind, hassign]
    decide
  have hfaults := faults_of_validate h
  obtain ⟨word, hword⟩ := Line.exists_assignedName?
    (hfaults declaration (List.mem_of_getElem? hdeclaration)) hkind
  have hlineFaults := hfaults line (List.mem_of_getElem? hline)
  obtain ⟨word', hword'⟩ := Line.exists_assignedName? hlineFaults hwrites
  refine ⟨word, word', hword, hword', ?_⟩
  rintro rfl
  have hbefore : declaration.item ∈ line.before := by
    rw [Outline.before_of_getElem?_linesFrom hline, List.nil_append]
    refine List.mem_of_getElem? (i := i) ?_
    rw [List.getElem?_take_of_lt hij, ← Outline.map_item_linesFrom [] program.outline,
      List.getElem?_map, show (Outline.linesFrom [] program.outline)[i]? = _ from hdeclaration]
    rfl
  have hdeclares : declaration.statement.declaredConstant? = some word := by
    rw [Statement.declaredConstant?,
      if_pos (Bool.and_eq_true_iff.mpr ⟨decide_eq_true hassign, hconstant⟩)]
    exact Statement.writtenName?_eq_some hkind hwidth hword
  exact Line.writtenName?_ne_of_mem_before hlineFaults hbefore hdeclares
    (Statement.writtenName?_eq_some hwrites hwidth' hword')

/-- A constant, and below it lines that write to other variables: an element, a loop and a name in
full-width letters. -/
def keptLimit : Block :=
  .ofNodes [
    ⟨⟨"1", .assign, ["LIMIT", "3"], true, false⟩, .nil⟩,
    ⟨⟨"2", .assign, ["LIMITS[LIMIT]", "1"], false, false⟩, .nil⟩,
    ⟨⟨"3", .forIncrement, ["\u3000i", "1", "LIMIT", "1"], false, false⟩,
      .ofNodes [⟨⟨"4", .increment, ["ｎ", "1"], false, false⟩, .nil⟩]⟩,
    ⟨⟨"5", .endFor, [], false, false⟩, .nil⟩]

/-- The loop counts with another variable than the constant. -/
theorem validate_keeps_constants_keptLimit :
    keptLimit.validate = [] ∧
      ∃ word word', Statement.assignedName? ⟨"1", .assign, ["LIMIT", "3"], true, false⟩ =
        some word ∧ Statement.assignedName?
          ⟨"3", .forIncrement, ["\u3000i", "1", "LIMIT", "1"], false, false⟩ = some word' ∧
        word ≠ word' := by
  have hvalid : keptLimit.validate = [] := by decide +kernel
  exact ⟨hvalid, validate_keeps_constants hvalid (i := 0) (j := 2) (by decide) rfl rfl rfl rfl
    (by decide) (by decide) (by decide)⟩

/-- A constant that is written again without a finding: in full-width letters, and with a full-width
bracket behind its name. -/
def rewrittenLimit : Block :=
  .ofNodes [
    ⟨⟨"1", .assign, ["MAX", "1"], true, false⟩, .nil⟩,
    ⟨⟨"2", .assign, ["ＭＡＸ", "2"], false, false⟩, .nil⟩,
    ⟨⟨"3", .increment, ["MAX［0］", "1"], false, false⟩, .nil⟩]

/-- The lines below the declaration read as writing to the constant. -/
theorem validate_misses_rewrittenLimit :
    rewrittenLimit.validate = [] ∧
      ∃ s, rewrittenLimit.statements.head? = some s ∧ s.kind = .assign ∧ s.isConstant = true ∧
        s.assignedName? = some "MAX" ∧
        ∀ t ∈ rewrittenLimit.statements.tail, t.kind ∈ StatementKind.writing ∧
          t.assignedName? = some "MAX" :=
  ⟨by decide +kernel, _, rfl, rfl, rfl, by decide +kernel, by decide +kernel⟩

end Block

end BlockCode
