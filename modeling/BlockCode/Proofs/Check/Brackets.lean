/- # Brackets of whole statements

The check of a line looks at the brackets of all slots as they were typed, before any slot is read.
A slot that reads has fine brackets when it is read, that is when its glyphs are folded and its
negations moved. So it has fine brackets as it was typed if it was typed evenly, and slots that have
fine brackets one by one have fine brackets together. What holds no expression is looked at too: the
label of a region, and slots in excess.
-/

import BlockCode.Proofs.Form.Acceptance
import BlockCode.Proofs.Fragment.Negations
import BlockCode.Proofs.Fragment.Typing

namespace BlockCode

/-- What reads is closed: its strings end in it. -/
theorem closesFrom_of_readable {text : String} (h : Readable text) :
    closesFrom .outside text.toList = true := by
  obtain ⟨e, he⟩ | ⟨items, hitems⟩ := h
  · obtain ⟨tokens, hlex, hspells⟩ := exists_spells_of_parseExpr he
    exact closesFrom_of_lexFrom hlex hspells.ne_unclosedString
  · obtain ⟨tokens, hlex, ⟨rfl, -⟩ | ⟨-, hderives⟩⟩ := exists_tokens_of_parseExprList hitems
    · exact closesFrom_of_lexFrom hlex (by simp)
    · exact closesFrom_of_lexFrom hlex hderives.ne_unclosedString

/-- An evenly typed slot whose rewritten text has fine brackets and reads has fine brackets as it
was typed. -/
theorem EvenlyTyped.bracketErrors_of_checkedText {slot text : String}
    (htyped : EvenlyTyped slot.toList) (hchecked : checkedText slot = .ok text)
    (hread : Readable text) : bracketErrors [slot.toList] = [] := by
  obtain ⟨hnormal, hbrackets⟩ := checkedText_eq_ok_iff.mp hchecked
  have hrewritten := normalizeText_eq_ok_iff.mp hnormal
  exact htyped.bracketErrors_eq_nil
    (closesFrom_of_rewriteNegation hrewritten (closesFrom_of_readable hread))
    (bracketErrors_of_rewriteNegation hrewritten hbrackets)

theorem Statement.bracketErrors_of_readSlot {s : Statement} {slot : Nat} {exprs : List Expr}
    (hread : s.readSlot slot = .ok exprs) (htyped : EvenlyTyped (s.slot slot).toList) :
    bracketErrors [(s.slot slot).toList] = [] := by
  rw [readSlot] at hread
  split at hread
  · obtain ⟨text, hchecked, hparse, -⟩ := prepareList_eq_ok_iff.mp hread
    exact htyped.bracketErrors_of_checkedText hchecked (.inr ⟨exprs, hparse⟩)
  · obtain ⟨e, hprepare, -⟩ := map_eq_ok_iff.mp hread
    obtain ⟨text, hchecked, hparse, -⟩ := prepare_eq_ok_iff.mp hprepare
    exact htyped.bracketErrors_of_checkedText hchecked (.inl ⟨e, hparse⟩)

theorem Statement.exists_of_isSome {s : Statement} {slot : Nat}
    (h : (s.readSlot slot).toOption.isSome = true) : ∃ exprs, s.readSlot slot = .ok exprs := by
  cases hread : s.readSlot slot with
  | ok exprs => exact ⟨exprs, rfl⟩
  | error e =>
      rw [hread] at h
      cases h

/-- Slots that have fine brackets one by one have fine brackets together. -/
theorem Statement.bracketErrors_of_slots {s : Statement}
    (h : ∀ slot, bracketErrors [(s.slot slot).toList] = []) :
    bracketErrors (s.slots.map String.toList) = [] := by
  refine bracketErrors_eq_nil_of_forall (List.forall_mem_map.mpr fun text htext => ?_)
  obtain ⟨slot, hslot, rfl⟩ := List.mem_iff_getElem.mp htext
  have hfine := h slot
  rwa [Statement.slot, List.getD_eq_getElem?_getD, List.getElem?_eq_getElem hslot] at hfine

namespace Line

variable {functions : List FunctionSignature} {line : Line} {e : ExprError}

/-- Where the slots are in order as a whole, no fault of the line is one of an expression. -/
theorem expression_notMem_faults (h : line.statement.slotErrors = []) :
    .expression e ∉ line.faults functions := by
  intro hfault
  rcases mem_of_isSlotFault hfault rfl with hcount | ⟨-, hcall⟩ | hexpression
  · rw [slotCountFaults] at hcount
    split at hcount
    · split at hcount <;> simp at hcount
    · split at hcount <;> simp at hcount
  · rw [callFaults] at hcall
    split at hcall
    · simp at hcall
    · split at hcall <;> simp at hcall
  · obtain ⟨slot, -, exprs, -, e', -, ⟨htarget, -⟩ | hcall⟩ :=
      exists_of_mem_expressionFaults h hexpression
    · cases htarget
    · cases isCallFault_of_mem_userCallFaults hcall

end Line

namespace Block

variable {program : Block} {line : Line}

/-- No expression of a line is at fault where every slot that holds one reads, as long as nothing
else of the line has wrong brackets: neither a slot that holds no expression nor one that is not
typed evenly. -/
theorem validate_accepts_slots (hline : line ∈ program.outline.lines)
    (hreads : ∀ slot ∈ line.statement.expressionSlots,
      ∃ exprs, line.statement.readSlot slot = .ok exprs)
    (hothers : ∀ slot, ¬ (slot ∈ line.statement.expressionSlots ∧
        EvenlyTyped (line.statement.slot slot).toList) →
      bracketErrors [(line.statement.slot slot).toList] = []) :
    ∀ finding ∈ program.validate, finding.line = line.number →
      ∀ e, finding.fault ≠ .expression e := by
  have hslots : line.statement.slotErrors = [] := by
    refine Statement.slotErrors_eq_nil_iff.mpr ⟨Statement.bracketErrors_of_slots ?_, hreads⟩
    intro slot
    by_cases hslot : slot ∈ line.statement.expressionSlots ∧
        EvenlyTyped (line.statement.slot slot).toList
    · obtain ⟨exprs, hread⟩ := hreads slot hslot.1
      exact Statement.bracketErrors_of_readSlot hread hslot.2
    · exact hothers slot hslot
  intro finding hfinding hnumber e hexpression
  obtain ⟨other, hother, fault, hfault, rfl⟩ := mem_validate_iff.mp hfinding
  obtain rfl := Outline.eq_of_number_eq hother hline hnumber
  obtain rfl : fault = .expression e := hexpression
  exact Line.expression_notMem_faults hslots hfault

/-- A slot too many stands behind two in which the widths change from pair to pair. -/
def evenEntries : Block :=
  .ofNodes [
    ⟨⟨"1", .assign, ["ａ［(ｉ)］", "（(ｘ ＝ 「（」)でない）かつ f( )＞2", "(n)"], false, false⟩, .nil⟩]

theorem evenlyTyped_evenEntries :
    ∀ slot ∈ evenEntries.outline.lines[0].statement.expressionSlots,
      EvenlyTyped (evenEntries.outline.lines[0].statement.slot slot).toList := by
  have hplain : ∀ slot ∈ evenEntries.outline.lines[0].statement.expressionSlots,
      readsAlike .outside .outside
          (evenEntries.outline.lines[0].statement.slot slot).toList = true ∧
        closesAlike [] (outerParens isQuote .outside
          (evenEntries.outline.lines[0].statement.slot slot).toList) = true ∧
        '＿' ∉ (evenEntries.outline.lines[0].statement.slot slot).toList := by
    decide +kernel
  intro slot hslot
  obtain ⟨hreads, hcloses, hline⟩ := hplain slot hslot
  exact ⟨hreads, hcloses, not_callsWideLine hline⟩

/-- All that is found on the line is that there is a slot too many. -/
theorem validate_accepts_slots_evenEntries :
    (∀ finding ∈ evenEntries.validate, finding.line = 1 → ∀ e, finding.fault ≠ .expression e) ∧
      evenEntries.validate = [⟨1, "1", .slotCount .assign 2 3⟩] := by
  have hline : evenEntries.outline.lines[0] ∈ evenEntries.outline.lines := List.getElem_mem _
  have hread : ∀ slot ∈ evenEntries.outline.lines[0].statement.expressionSlots,
      (evenEntries.outline.lines[0].statement.readSlot slot).toOption.isSome = true := by
    decide +kernel
  refine ⟨validate_accepts_slots hline (fun slot hslot => ?_) (fun slot hother => ?_), ?_⟩
  · exact Statement.exists_of_isSome (hread slot hslot)
  · have htyped := evenlyTyped_evenEntries slot
    match slot with
    | 0 => exact absurd ⟨by decide, htyped (by decide)⟩ hother
    | 1 => exact absurd ⟨by decide, htyped (by decide)⟩ hother
    | 2 => decide
    | slot + 3 => rfl
  · decide +kernel

/-- A region around a slot that reads. Its label is no expression, and opens a parenthesis. -/
def openedLabel : Block :=
  .ofNodes [
    ⟨⟨"1", .region, ["("], false, false⟩,
      .ofNodes [⟨⟨"2", .output, ["x"], false, false⟩, .nil⟩]⟩,
    ⟨⟨"3", .endRegion, [], false, false⟩, .nil⟩]

/-- Every slot with an expression reads, and the brackets of the label are found wrong. -/
theorem openedLabel_found :
    (∀ line ∈ openedLabel.outline.lines, ∀ slot ∈ line.statement.expressionSlots,
      ∃ exprs, line.statement.readSlot slot = .ok exprs) ∧
    openedLabel.validate = [⟨1, "1", .expression (.bracket .missingRight)⟩] := by
  have hread : ∀ line ∈ openedLabel.outline.lines, ∀ slot ∈ line.statement.expressionSlots,
      (line.statement.readSlot slot).toOption.isSome = true := by
    decide +kernel
  exact ⟨fun line hline slot hslot => Statement.exists_of_isSome (hread line hline slot hslot),
    by decide +kernel⟩

end Block

end BlockCode
