/- # Actions of checked statements

A checked statement whose block was opened by the right line has an action in every target.
Turning the action into lines fails only where a counting loop overflows: where the end of a
range is the largest integer, or where the step of a loop that counts down is the smallest.
-/

import BlockCode.Proofs.Check.Slots
import BlockCode.Proofs.Outcome
import BlockCode.Proofs.Target.Steps
import BlockCode.Target.Passage

namespace BlockCode

theorem StatementKind.expressionSlots_eq {kind : StatementKind} {n count : Nat}
    (hn : kind.arity? = some n) (hregion : kind ≠ .region) :
    kind.expressionSlots count = (List.range n).filter (· < count) := by
  unfold expressionSlots
  split
  · cases hn
  · exact absurd rfl hregion
  · rw [hn]
    rfl

namespace Statement

/-- What makes the rendering of the statement overflow: an end of a range that lies one behind the
largest integer, or a step without a negative. -/
def OverflowsIn (s : Statement) : Target → Prop
  | .javaScript => False
  | .python =>
    s.kind = .forIncrement ∧
      ∃ last, prepare (s.slot 2) = .ok last ∧ last.literalInteger? = some maxInt64
  | .vba | .ruby =>
    s.kind = .forDecrement ∧ ∃ step, prepare (s.slot 3) = .ok step ∧ step.IsLeastLiteral

/-- The action of a counting loop has its direction, end and step from the statement. -/
def Gives (s : Statement) : Action → Prop
  | .count direction _ _ last step =>
    s.kind.isCountingLoop = true ∧ direction = s.direction ∧ prepare (s.slot 2) = .ok last ∧
      prepare (s.slot 3) = .ok step
  | _ => True

namespace Checked

variable {s : Statement} (h : s.Checked)

include h

/-- The slots of a kind with a fixed number of them hold expressions, except for a label. -/
theorem mem_expressionSlots {n slot : Nat} (hn : s.kind.arity? = some n) (hslot : slot < n)
    (hregion : s.kind ≠ .region) : slot ∈ s.expressionSlots := by
  rw [expressionSlots, h.arity n hn, StatementKind.expressionSlots_eq hn hregion,
    List.mem_filter, List.mem_range]
  exact ⟨hslot, decide_eq_true hslot⟩

/-- A slot that holds a single expression. -/
theorem single (slot : Nat) {n : Nat} (hn : s.kind.arity? = some n) (hslot : slot < n)
    (hregion : s.kind ≠ .region) (hlist : s.kind.isListSlot slot = false) :
    ∃ e, prepare (s.slot slot) = .ok e ∧ s.exprIn slot = .ok e :=
  h.exprIn_eq (h.mem_expressionSlots hn hslot hregion) hlist

/-- A slot that holds a list. -/
theorem list (slot : Nat) {n : Nat} (hn : s.kind.arity? = some n) (hslot : slot < n)
    (hlist : s.kind.isListSlot slot = true) : ∃ exprs, s.exprsIn slot = .ok exprs := by
  refine h.exprsIn_eq (h.mem_expressionSlots hn hslot ?_) hlist
  intro hregion
  rw [hregion] at hlist
  revert hlist
  simp [StatementKind.isListSlot]

end Checked

section Action

variable {s : Statement} {target : Target} {loop? : Option StatementKind}
  {opener? : Option Statement}

/-- Looking for a fraction reads slots that read. -/
theorem exists_anyFraction_eq {slots : List Nat} (h : ∀ slot ∈ slots, ∃ e, s.exprIn slot = .ok e) :
    ∃ found, s.anyFraction slots = .ok found := by
  induction slots with
  | nil => exact ⟨false, rfl⟩
  | cons slot slots ih =>
      rw [List.forall_mem_cons] at h
      obtain ⟨e, he⟩ := h.1
      obtain ⟨found, hfound⟩ := ih h.2
      rw [anyFraction, he]
      change ∃ found, (if e.isFractionalLiteral = true then pure true
        else s.anyFraction slots) = .ok found
      split
      · exact ⟨true, rfl⟩
      · exact ⟨found, hfound⟩

/-- The end of a counting loop is read with a checked opener. -/
theorem exists_loopFooter_eq {opener : Statement} (h : opener.Checked)
    (hkind : opener.kind = .forIncrement ∨ opener.kind = .forDecrement) :
    ∃ footer, s.loopFooter target (some opener) = .ok footer := by
  have read (slot : Nat) (hslot : slot < 4) : ∃ e, opener.exprIn slot = .ok e := by
    have harity : opener.kind.arity? = some 4 := by
      rcases hkind with hkind | hkind <;> rw [hkind] <;> rfl
    have hlist : opener.kind.isListSlot slot = false := by
      rcases hkind with hkind | hkind <;> rw [hkind] <;> exact Bool.and_false _
    have hregion : opener.kind ≠ .region := by
      rcases hkind with hkind | hkind <;> rw [hkind] <;> decide
    obtain ⟨e, _, he⟩ := h.single slot harity hslot hregion hlist
    exact ⟨e, he⟩
  obtain ⟨counter, hcounter⟩ := read 0 (by decide)
  obtain ⟨step, hstep⟩ := read 3 (by decide)
  cases target with
  | javaScript => exact ⟨.bare, rfl⟩
  | ruby => exact ⟨.bare, rfl⟩
  | vba =>
      refine ⟨.counter counter, ?_⟩
      simp only [loopFooter, openedBy, hcounter, bind, Except.bind]
      rfl
  | python =>
      obtain ⟨found, hfound⟩ : ∃ found, opener.anyFraction [1, 2, 3] = .ok found := by
        apply exists_anyFraction_eq
        intro slot hslot
        simp only [List.mem_cons, List.not_mem_nil, or_false] at hslot
        exact read slot (by omega)
      cases found with
      | true =>
          refine ⟨.advance opener.direction counter step, ?_⟩
          simp only [loopFooter, openedBy, hfound, hcounter, hstep, bind, Except.bind]
          rfl
      | false =>
          refine ⟨.bare, ?_⟩
          simp only [loopFooter, openedBy, hfound, bind, Except.bind]
          rfl

/-- The line that opened the block of a closing line. -/
theorem exists_opener {closing : StatementKind} {kinds : List StatementKind}
    (h : closing.Follows (opener?.map Statement.kind))
    (hkinds : closing.predecessors? = some kinds) :
    ∃ opener, opener? = some opener ∧ opener.kind ∈ kinds := by
  obtain ⟨kind, hkind, hmem⟩ := h.exists_mem hkinds
  obtain ⟨opener, hopener, rfl⟩ := Option.map_eq_some_iff.mp hkind
  exact ⟨opener, hopener, hmem⟩

/-- A checked statement whose block was opened by the right line has an action. -/
theorem Checked.exists_action_eq (h : s.Checked)
    (hopener : s.kind.closesBlock = true → s.kind.Follows (opener?.map Statement.kind))
    (hopeners : ∀ opener ∈ opener?, opener.Checked) :
    ∃ action, s.action target loop? opener? = .ok action ∧ s.Gives action := by
  obtain ⟨id, kind, slots, isConstant, collapsed⟩ := s
  cases kind with
  | assign =>
      obtain ⟨left, _, hleft⟩ := h.single 0 rfl (by decide) nofun rfl
      obtain ⟨right, _, hright⟩ := h.single 1 rfl (by decide) nofun rfl
      refine ⟨.assign isConstant left right, ?_, trivial⟩
      simp only [action, hleft, hright, bind, Except.bind]
      rfl
  | initializeArray =>
      obtain ⟨left, _, hleft⟩ := h.single 0 rfl (by decide) nofun rfl
      obtain ⟨items, hitems⟩ := h.list 1 rfl (by decide) rfl
      refine ⟨.initializeArray left items, ?_, trivial⟩
      simp only [action, hleft, hitems, bind, Except.bind]
      rfl
  | bulkAssign =>
      obtain ⟨left, _, hleft⟩ := h.single 0 rfl (by decide) nofun rfl
      obtain ⟨right, _, hright⟩ := h.single 1 rfl (by decide) nofun rfl
      refine ⟨.fillArray left right, ?_, trivial⟩
      simp only [action, hleft, hright, bind, Except.bind]
      rfl
  | increment | decrement =>
      obtain ⟨left, _, hleft⟩ := h.single 0 rfl (by decide) nofun rfl
      obtain ⟨amount, _, hamount⟩ := h.single 1 rfl (by decide) nofun rfl
      simp only [action, hleft, hamount, bind, Except.bind]
      exact ⟨_, rfl, trivial⟩
  | output =>
      obtain ⟨items, hitems⟩ : ∃ items, (List.range slots.length).mapM
          (exprIn ⟨id, .output, slots, isConstant, collapsed⟩) = .ok items := by
        apply exists_mapM_eq_ok
        intro slot hslot
        obtain ⟨e, _, he⟩ := h.exprIn_eq hslot (Bool.and_false _)
        exact ⟨e, he⟩
      refine ⟨.output items, ?_, trivial⟩
      simp only [action, hitems, bind, Except.bind]
      rfl
  | ifThen | elseIf | whileLoop =>
      obtain ⟨condition, _, hcondition⟩ := h.single 0 rfl (by decide) nofun rfl
      simp only [action, hcondition, bind, Except.bind]
      exact ⟨_, rfl, trivial⟩
  | otherwise | endIf | endWhile | doWhile | endFunction | breakLoop | region =>
      exact ⟨_, rfl, trivial⟩
  | endDoWhile =>
      obtain ⟨opener, rfl, hkind⟩ := exists_opener (hopener rfl) rfl
      have harity : opener.kind.arity? = some 1 := by
        rw [List.mem_singleton.mp hkind]
        rfl
      have hregion : opener.kind ≠ .region := by
        rw [List.mem_singleton.mp hkind]
        decide
      have hlist : opener.kind.isListSlot 0 = false := rfl
      obtain ⟨condition, _, hcondition⟩ :=
        (hopeners opener rfl).single 0 harity (by decide) hregion hlist
      refine ⟨.endDoWhile condition, ?_, trivial⟩
      simp only [action, openedBy, hcondition, bind, Except.bind]
      rfl
  | forIncrement | forDecrement =>
      obtain ⟨counter, _, hcounter⟩ := h.single 0 rfl (by decide) nofun rfl
      obtain ⟨first, _, hfirst⟩ := h.single 1 rfl (by decide) nofun rfl
      obtain ⟨last, hlast', hlast⟩ := h.single 2 rfl (by decide) nofun rfl
      obtain ⟨step, hstep', hstep⟩ := h.single 3 rfl (by decide) nofun rfl
      simp only [action, hcounter, hfirst, hlast, hstep, bind, Except.bind]
      exact ⟨_, rfl, rfl, rfl, hlast', hstep'⟩
  | endFor =>
      obtain ⟨opener, rfl, hkind⟩ := exists_opener (hopener rfl) rfl
      simp only [List.mem_cons, List.not_mem_nil, or_false] at hkind
      obtain ⟨footer, hfooter⟩ : ∃ footer, loopFooter ⟨id, .endFor, slots, isConstant, collapsed⟩
          target (some opener) = .ok footer :=
        exists_loopFooter_eq (hopeners opener rfl) hkind
      refine ⟨.endCount footer, ?_, trivial⟩
      simp only [action, hfooter, bind, Except.bind]
      rfl
  | defineFunction | callFunction =>
      obtain ⟨items, hitems⟩ := h.list 1 rfl (by decide) rfl
      simp only [action, hitems, bind, Except.bind]
      exact ⟨_, rfl, trivial⟩
  | endRegion =>
      obtain ⟨opener, rfl, _⟩ := exists_opener (hopener rfl) rfl
      exact ⟨.endRegion (opener.plainSlot 0), rfl, trivial⟩

end Action

end Statement

/-- A literal with a value as an integer lies in the range, and so does its negative. -/
theorem Expr.literalInteger?_bounds {e : Expr} {value : Int} (h : e.literalInteger? = some value) :
    -maxInt64 ≤ value ∧ value ≤ maxInt64 := by
  fun_induction Expr.literalInteger? e generalizing value with
  | case1 span text =>
      rw [numeralInteger?] at h
      dsimp only at h
      split at h
      · cases h
      · split at h
        · rename_i hle
          cases h
          have hpos : (0 : Int) ≤ digitsValue text.toList := Int.natCast_nonneg _
          rw [maxInt64] at hle ⊢
          omega
        · cases h
  | case2 span inner ih => exact ih h
  | case3 span operand ih =>
      obtain ⟨value', hvalue', rfl⟩ := Option.map_eq_some_iff.mp h
      have hbounds := ih hvalue'
      change -maxInt64 ≤ -value' ∧ -value' ≤ maxInt64
      omega
  | case4 => cases h

section Lines

variable {target : Target} {spellings? : Option Spellings} {direction : Direction}
  {counter first last step : Expr} {operation : Overflow}

theorem addInt64_eq_error {a b : Int} (h : addInt64 a b = .error operation) :
    ¬ (minInt64 ≤ a + b ∧ a + b ≤ maxInt64) := by
  rw [addInt64] at h
  split at h
  · cases h
  · rename_i hrange
    rw [isInt64_iff] at hrange
    exact hrange

/-- The end of a range overflows only above the largest integer. -/
theorem Python.rangeStop_eq_error {p : ExprPrinter}
    (h : Python.rangeStop p direction last = .error operation) :
    direction = .up ∧ last.literalInteger? = some maxInt64 := by
  unfold Python.rangeStop at h
  cases hvalue : last.literalInteger? with
  | none =>
      rw [hvalue] at h
      cases h
  | some value =>
      have hbounds := Expr.literalInteger?_bounds hvalue
      rw [hvalue] at h
      cases direction with
      | up =>
          have hrange : ¬ (minInt64 ≤ value + 1 ∧ value + 1 ≤ maxInt64) :=
            addInt64_eq_error (map_eq_error h)
          have heq : value = maxInt64 := by
            rw [minInt64, maxInt64] at *
            omega
          rw [heq]
          exact ⟨rfl, rfl⟩
      | down =>
          have hrange : ¬ (minInt64 ≤ value + -1 ∧ value + -1 ≤ maxInt64) :=
            addInt64_eq_error (map_eq_error h)
          rw [minInt64, maxInt64] at *
          omega

/-- The header of a loop over integers overflows only through the end of its range. -/
theorem Python.rangeHeader_eq_error (hspellings : ∀ spellings ∈ spellings?, spellings.Lettered)
    (hstep : step.Worded) (hfraction : step.isFractionalLiteral = false)
    (h : Python.rangeHeader (target.printer spellings?) direction counter first last step =
      .error operation) :
    direction = .up ∧ last.literalInteger? = some maxInt64 := by
  unfold Python.rangeHeader at h
  rw [bind_eq_error_iff] at h
  rcases h with h | ⟨stop, _, h⟩
  · exact Python.rangeStop_eq_error h
  · cases direction with
    | up =>
        dsimp only at h
        split at h <;> cases h
    | down =>
        dsimp only at h
        have hleast := isLeastLiteral_of_negated_eq_error hspellings hstep
          (eq_error_of_bind_pure h)
        rw [hleast.isFractionalLiteral] at hfraction
        cases hfraction

/-- The header of a loop overflows only where it counts down by the smallest integer. -/
theorem Vba.loopHeader_eq_error (hspellings : ∀ spellings ∈ spellings?, spellings.Lettered)
    (hstep : step.Worded)
    (h : Vba.loopHeader (target.printer spellings?) direction counter first last step =
      .error operation) :
    direction = .down ∧ step.IsLeastLiteral := by
  unfold Vba.loopHeader at h
  cases direction with
  | up =>
      dsimp only at h
      split at h <;> cases h
  | down =>
      dsimp only at h
      exact ⟨rfl, isLeastLiteral_of_negated_eq_error hspellings hstep (eq_error_of_bind_pure h)⟩

/-- So does the call that a loop becomes. -/
theorem Ruby.loopCall_eq_error (hspellings : ∀ spellings ∈ spellings?, spellings.Lettered)
    (hstep : step.Worded) (h : Ruby.loopCall (target.printer spellings?) direction first last step =
      .error operation) :
    direction = .down ∧ step.IsLeastLiteral := by
  unfold Ruby.loopCall at h
  dsimp only at h
  split at h
  · cases h
  · cases h
  · cases h
  · exact ⟨rfl, isLeastLiteral_of_negated_eq_error hspellings hstep (eq_error_of_bind_pure h)⟩

/-- Only counting loops can fail to become lines. -/
theorem Target.exists_lines_eq {action : Action}
    (h : ∀ direction counter first last step, action ≠ .count direction counter first last step) :
    ∃ lines, target.lines spellings? action = .ok lines := by
  cases target with
  | javaScript => exact ⟨_, rfl⟩
  | python =>
      cases action with
      | count direction counter first last step => exact (h _ _ _ _ _ rfl).elim
      | change direction left amount => cases direction <;> exact ⟨_, rfl⟩
      | _ => exact ⟨_, rfl⟩
  | vba =>
      cases action with
      | count direction counter first last step => exact (h _ _ _ _ _ rfl).elim
      | _ => exact ⟨_, rfl⟩
  | ruby =>
      cases action with
      | count direction counter first last step => exact (h _ _ _ _ _ rfl).elim
      | change direction left amount => cases direction <;> exact ⟨_, rfl⟩
      | _ => exact ⟨_, rfl⟩

theorem Statement.kind_of_direction_up {s : Statement} (hkind : s.kind.isCountingLoop = true)
    (h : s.direction = .up) : s.kind = .forIncrement := by
  obtain ⟨id, kind, slots, isConstant, collapsed⟩ := s
  revert hkind h
  cases kind <;> simp [StatementKind.isCountingLoop, direction]

theorem Statement.kind_of_direction_down {s : Statement} (hkind : s.kind.isCountingLoop = true)
    (h : s.direction = .down) : s.kind = .forDecrement := by
  obtain ⟨id, kind, slots, isConstant, collapsed⟩ := s
  revert hkind h
  cases kind <;> simp [StatementKind.isCountingLoop, direction]

/-- The action of a statement fails to become lines only by an overflow of the statement. -/
theorem Statement.lines_overflowsOnlyIf (hspellings : ∀ spellings ∈ spellings?, spellings.Lettered)
    {s : Statement} {action : Action} (h : s.Gives action) :
    OverflowsOnlyIf ((target.lines spellings? action).mapError .overflow)
      (s.OverflowsIn target) := by
  by_cases hcount : ∃ direction counter first last step,
      action = .count direction counter first last step
  · obtain ⟨direction, counter, first, last, step, rfl⟩ := hcount
    obtain ⟨hkind, hdirection, hlast, hstep⟩ := h
    have hworded := worded_of_prepare hstep
    apply OverflowsOnlyIf.mapError
    intro operation herror
    cases target with
    | javaScript => cases herror
    | python =>
        rw [Target.lines] at herror
        unfold Python.lines at herror
        dsimp only at herror
        split at herror
        · cases herror
        · rename_i hfractions
          have hfraction : step.isFractionalLiteral = false := by
            rw [countsInFractions, List.any_cons, List.any_cons, List.any_cons] at hfractions
            simp only [Bool.or_eq_true, not_or, Bool.not_eq_true] at hfractions
            exact hfractions.2.2.1
          obtain ⟨rfl, hmax⟩ := Python.rangeHeader_eq_error hspellings hworded hfraction
            (eq_error_of_bind_pure herror)
          exact ⟨kind_of_direction_up hkind hdirection.symm, last, hlast, hmax⟩
    | vba =>
        rw [Target.lines] at herror
        unfold Vba.lines at herror
        dsimp only at herror
        obtain ⟨rfl, hleast⟩ := Vba.loopHeader_eq_error hspellings hworded
          (eq_error_of_bind_pure herror)
        exact ⟨kind_of_direction_down hkind hdirection.symm, step, hstep, hleast⟩
    | ruby =>
        rw [Target.lines] at herror
        unfold Ruby.lines at herror
        dsimp only at herror
        obtain ⟨rfl, hleast⟩ := Ruby.loopCall_eq_error hspellings hworded
          (eq_error_of_bind_pure herror)
        exact ⟨kind_of_direction_down hkind hdirection.symm, step, hstep, hleast⟩
  · obtain ⟨lines, hlines⟩ : ∃ lines, target.lines spellings? action = .ok lines := by
      apply Target.exists_lines_eq
      intro direction counter first last step heq
      exact hcount ⟨direction, counter, first, last, step, heq⟩
    rw [hlines]
    exact .ok lines

end Lines

end BlockCode
