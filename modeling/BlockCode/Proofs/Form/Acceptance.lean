/- # What the form accepts, the check accepts

A form looks at the texts of its fields as they were typed, and the check of a program at whole
slots as they are read. A statement that a form gives has the slots of its kind, and they read. That
the two also agree on what may be written to and on which calls fit takes more: a form lets
anything that is an operand be written to, and of the arguments that it counts it reads none.
-/

import BlockCode.Proofs.Check.Calls
import BlockCode.Proofs.Expr.Equality
import BlockCode.Proofs.Form.Calls
import BlockCode.Proofs.Form.Targets

namespace BlockCode

/-! ## Faults of slots -/

namespace Fault

/-- Whether the fault is that of a slot that is missing, in excess or not to be read. -/
def isReadingFault : Fault → Bool
  | .slotCount .. | .expression _ => true
  | _ => false

/-- Whether the fault is that of something that cannot be written to. -/
def isTargetFault : Fault → Bool
  | .notAssignable _ => true
  | _ => false

/-- Whether the fault is one of the slots by themselves, whatever stands around the line. -/
def isSlotFault (fault : Fault) : Bool :=
  fault.isReadingFault || fault.isTargetFault || fault.isCallFault

end Fault

namespace Line

variable {functions : List FunctionSignature} {line : Line} {fault : Fault}

/-- What stands around a line gives it no fault of its slots. -/
theorem isSlotFault_eq_false (h : fault ∈ line.idFaults ++ line.successorFaults
    ++ line.predecessorFaults ++ line.bodyFaults ++ line.breakFaults ++ line.definitionFaults
    ++ line.constantFaults) : fault.isSlotFault = false := by
  have none : ∀ fault ∈ ([] : List Fault), fault.isSlotFault = false := List.forall_mem_nil _
  have one {fault : Fault} (hfault : fault.isSlotFault = false) :
      ∀ fault' ∈ [fault], fault'.isSlotFault = false := List.forall_mem_singleton.mpr hfault
  revert fault
  simp only [List.forall_mem_append]
  refine ⟨⟨⟨⟨⟨⟨?_, ?_⟩, ?_⟩, ?_⟩, ?_⟩, ?_⟩, ?_⟩
  · rw [idFaults]
    split
    · exact one rfl
    · exact none
  · rw [successorFaults]
    split
    · split
      · exact none
      · exact one rfl
    · exact none
  · rw [predecessorFaults]
    split
    · split
      · exact none
      · exact one rfl
    · exact none
  · rw [bodyFaults]
    split
    · exact one rfl
    · exact none
  · rw [breakFaults]
    split
    · exact none
    · exact one rfl
  · rw [definitionFaults, List.forall_mem_append]
    refine ⟨?_, ?_⟩
    · split
      · exact one rfl
      · exact none
    · split
      · exact one rfl
      · exact none
  · rw [constantFaults]
    split
    · exact none
    · split
      · exact one rfl
      · exact none

/-- The faults of the slots of a line are those of their number, of the call on the line and of the
expressions. -/
theorem mem_of_isSlotFault (h : fault ∈ line.faults functions) (hslot : fault.isSlotFault = true) :
    fault ∈ line.slotCountFaults ∨
      line.kind = .callFunction ∧ fault ∈ callFaults functions (trim (line.statement.slot 0))
        (listLength (line.statement.slot 1)) ∨
      fault ∈ line.expressionFaults functions := by
  have hnone := mt (@isSlotFault_eq_false line fault) (by rw [hslot]; exact Bool.noConfusion)
  simp only [List.mem_append, not_or] at hnone
  obtain ⟨⟨⟨⟨⟨⟨hid, hsuccessor⟩, hpredecessor⟩, hbody⟩, hbreak⟩, hdefinition⟩, hconstant⟩ := hnone
  simp only [faults, structureFaults, List.mem_append, hid, hsuccessor, hpredecessor, hbody,
    hconstant, false_or, or_false] at h
  rcases h with (hcount | hkind) | hexpression
  · exact .inl hcount
  · rw [kindFaults] at hkind
    split at hkind
    · exact absurd hkind hbreak
    · exact absurd hkind hdefinition
    · next hcall => exact .inr (.inl ⟨hcall, hkind⟩)
    · cases hkind
  · exact .inr (.inr hexpression)

/-- What a call adds is a fault of calls. -/
theorem isCallFault_of_mem_userCallFaults {e : Expr} (h : fault ∈ userCallFaults functions e) :
    fault.isCallFault = true := by
  obtain ⟨part, -, hfault⟩ := List.mem_flatMap.mp h
  split at hfault
  · rw [callFaults] at hfault
    split at hfault
    · exact List.mem_singleton.mp hfault ▸ rfl
    · split at hfault
      · cases hfault
      · exact List.mem_singleton.mp hfault ▸ rfl
  · cases hfault

/-- Where the slots of a line are in order as a whole, a fault of its expressions is that of
something that cannot be written to or that of a call. -/
theorem exists_of_mem_expressionFaults (hslots : line.statement.slotErrors = [])
    (h : fault ∈ line.expressionFaults functions) :
    ∃ slot ∈ line.statement.expressionSlots, ∃ exprs, line.statement.readSlot slot = .ok exprs ∧
      ∃ e ∈ exprs,
        (fault.isTargetFault = true ∧
          ∃ target, line.kind.writeTarget? slot = some target ∧ target.admits e = false) ∨
        fault ∈ userCallFaults functions e := by
  obtain ⟨hbrackets, hreads⟩ := Statement.slotErrors_eq_nil_iff.mp hslots
  rw [expressionFaults, hbrackets] at h
  obtain ⟨slot, hslot, hfault⟩ := List.mem_flatMap.mp h
  obtain ⟨exprs, hread⟩ := hreads slot hslot
  rw [slotFaults, hread] at hfault
  obtain ⟨e, he, hfault⟩ := List.mem_flatMap.mp hfault
  refine ⟨slot, hslot, exprs, hread, e, he, ?_⟩
  rcases List.mem_append.mp hfault with hwrite | hcall
  · left
    split at hwrite
    · cases hwrite
    · next hrefused =>
      obtain rfl := List.mem_singleton.mp hwrite
      refine ⟨rfl, ?_⟩
      cases htarget : line.kind.writeTarget? slot with
      | none => exact absurd (by rw [htarget]; rfl) hrefused
      | some target =>
          refine ⟨target, rfl, ?_⟩
          rw [htarget, Option.all_some] at hrefused
          exact Bool.eq_false_iff.mpr hrefused
  · exact .inr hcall

end Line

namespace Form

variable {form : Form} {functions : List FunctionSignature} {line : Line}

/-- A line whose slots a form gives has as many as its kind has. -/
theorem slotCountFaults_of_slots (h : form.slots functions line.kind = .ok line.statement.slots) :
    line.slotCountFaults = [] := by
  obtain ⟨-, hvalue, -⟩ := slots_eq_ok_iff.mp h
  rw [Line.slotCountFaults, ← hvalue]
  cases harity : line.kind.arity? with
  | some n => exact if_pos (length_enteredSlots form functions harity)
  | none =>
      have hkind : line.kind = .output := by
        revert harity
        cases line.kind <;> decide
      rw [hkind]
      exact if_neg (mt List.length_eq_zero_iff.mp (enteredSlots_output_ne_nil form functions))

/-- What the check has against a line whose slots a form gives. It is nothing about their number or
their reading; nothing about what is written to, where the form writes plainly; and nothing about
calls, where those of the form are plain. -/
theorem faults_of_slots (h : form.slots functions line.kind = .ok line.statement.slots)
    {fault : Fault} (hfault : fault ∈ line.faults functions) :
    fault.isReadingFault = false ∧
      (form.WritesPlainly line.kind line.statement.slots → fault.isTargetFault = false) ∧
      (form.CallsPlainly functions line.kind line.statement.slots → fault.isCallFault = false) := by
  have hordered : line.statement.slotErrors = [] :=
    (Statement.slotErrors_congr rfl rfl).trans (slots_eq_ok_iff.mp h).2.2
  cases hslot : fault.isSlotFault with
  | false =>
      rw [Fault.isSlotFault, Bool.or_eq_false_iff, Bool.or_eq_false_iff] at hslot
      exact ⟨hslot.1.1, fun _ => hslot.1.2, fun _ => hslot.2⟩
  | true =>
      rcases Line.mem_of_isSlotFault hfault hslot with hcount | ⟨hkind, hcall⟩ | hexpression
      · rw [slotCountFaults_of_slots h] at hcount
        cases hcount
      · rw [callFaults_of_slots h hkind] at hcall
        cases hcall
      · obtain ⟨slot, hmem, exprs, hread, e, he, ⟨htarget, target, hwrites, hrefused⟩ | hcall⟩ :=
          Line.exists_of_mem_expressionFaults hordered hexpression
        · cases fault with
          | notAssignable =>
              refine ⟨rfl, fun hplain => ?_, fun _ => rfl⟩
              have hadmits := admits_of_slots h hplain hmem hwrites hread e he
              exact absurd (hadmits.symm.trans hrefused) Bool.noConfusion
          | _ => cases htarget
        · have hnone (hplain : form.CallsPlainly functions line.kind line.statement.slots) :
              fault.isCallFault = false := by
            rw [userCallFaults_of_slots h hplain hmem hread e he] at hcall
            cases hcall
          have hsort := Line.isCallFault_of_mem_userCallFaults hcall
          refine ⟨?_, fun _ => ?_, hnone⟩
          all_goals
            cases fault with
            | undefinedFunction | argumentCount => rfl
            | _ => cases hsort

end Form

/-! ## Findings of programs -/

namespace Outline

/-- No two lines have the same number. -/
theorem eq_of_number_eq {items : Outline} {line other : Line} (hline : line ∈ items.lines)
    (hother : other ∈ items.lines) (h : line.number = other.number) : line = other := by
  have hall : line.all = other.all :=
    (all_of_mem_linesFrom hline).trans (all_of_mem_linesFrom hother).symm
  obtain ⟨hbefore, hbehind⟩ := List.append_inj hall (Nat.succ.inj h)
  cases line
  cases other
  cases hbefore
  cases hbehind
  rfl

end Outline

namespace Block

variable {program : Block} {line : Line} {form : Form} {functions : List FunctionSignature}
  {kind : StatementKind} {slots : List String}

/-- What a form accepts for the functions of a program is accepted on every line of it. Nothing is
found about the number of the slots or their reading. Nothing is found about what is written to,
where that is a name that stays one or an element of an array; and nothing about calls, where the
arguments that the form holds read by themselves, to as many as the form counts, with calls that
fit. -/
theorem validate_accepts_form (hform : form.slots functions kind = .ok slots)
    (hfunctions : program.outline.functions = functions) (hline : line ∈ program.outline.lines)
    (hkind : line.statement.kind = kind) (hslots : line.statement.slots = slots) :
    ∀ finding ∈ program.validate, finding.line = line.number →
      finding.fault.isReadingFault = false ∧
      (form.WritesPlainly kind slots → finding.fault.isTargetFault = false) ∧
      (form.CallsPlainly functions kind slots → finding.fault.isCallFault = false) := by
  subst hfunctions hkind hslots
  intro finding hfinding hnumber
  obtain ⟨other, hother, fault, hfault, rfl⟩ := mem_validate_iff.mp hfinding
  obtain rfl := Outline.eq_of_number_eq hother hline hnumber
  exact Form.faults_of_slots hform hfault

/-- A form that writes the sum of one and `b` to an element of `A`. -/
def additionForm : Form := [
  ("left_operand_0", "A"), ("left_type_0", "array"), ("left_index_0", "i"),
  ("right_operand_0", "1, b"), ("right_function_0", "add")]

/-- A function, a constant, and what the form gives. -/
def enteredAddition : Block :=
  .ofNodes [
    ⟨⟨"1", .defineFunction, ["add", "x, y"], false, false⟩, .nil⟩,
    ⟨⟨"2", .endFunction, [], false, false⟩, .nil⟩,
    ⟨⟨"3", .assign, ["A", "0"], true, false⟩, .nil⟩,
    ⟨⟨"4", .assign, ["A[i]", "UserDefined:add(1, b)"], false, false⟩, .nil⟩]

theorem writesPlainly_additionForm :
    additionForm.WritesPlainly .assign ["A[i]", "UserDefined:add(1, b)"] where
  unnegated := by decide +kernel
  names := by
    have hnames : additionForm.writtenNames .assign = ["A"] := by decide
    rw [hnames]
    exact List.forall_mem_singleton.mpr ⟨"A", by decide, by decide +kernel⟩
  operand := fun _ operand h => by
    have hleft : additionForm.operand? .left 0 = some "A" := by decide
    cases hleft.symm.trans h
    decide

/-- An operand that a form holds is one of its fields. -/
theorem key_mem_of_operand? {side : Side} {i : Nat} {operand : String}
    (h : form.operand? side i = some operand) :
    side.label ++ "_operand_" ++ toString i ∈ form.map Prod.fst := by
  obtain ⟨text, hlookup, -⟩ := Option.map_eq_some_iff.mp (Option.filter_eq_some_iff.mp h).1
  obtain ⟨before, behind, rfl, -⟩ := List.lookup_eq_some_iff.mp hlookup
  rw [List.map_append]
  exact List.mem_append_right _ (by simp [OperandField.key, String.append_assoc])

/-- Either side of the form has one operand. -/
theorem eq_zero_of_operand?_additionForm {side : Side} {i : Nat} {operand : String}
    (h : additionForm.operand? side i = some operand) : i = 0 := by
  have hdigits : Nat.toDigits 10 i = ['0'] := by
    have hkey := key_mem_of_operand? h
    cases side <;> simpa [additionForm, Side.label, String.ext_iff] using hkey
  calc i = Nat.ofDigitChars 10 (Nat.toDigits 10 i) 0 := Nat.ofDigitChars_ten_toDigits.symm
    _ = 0 := by rw [hdigits]; rfl

theorem callsPlainly_additionForm : additionForm.CallsPlainly [⟨"add", 2⟩] .assign
    ["A[i]", "UserDefined:add(1, b)"] where
  unnegated := by decide +kernel
  operands := by
    intro side i operand h
    obtain rfl := eq_zero_of_operand?_additionForm h
    cases side with
    | left =>
        have hleft : additionForm.operand? .left 0 = some "A" := by decide
        have hfunction : additionForm.operandField? .left .function 0 = none := by decide
        cases hleft.symm.trans h
        rw [hfunction]
        exact (by decide : '\uff02' ∉ "A".toList)
    | right =>
        have hright : additionForm.operand? .right 0 = some "1, b" := by decide
        have hfunction : additionForm.operandField? .right .function 0 = some "add" := by
          decide
        cases hright.symm.trans h
        rw [hfunction]
        have hargs : parseExprList (foldGlyphsText "1, b") =
            .ok [.number ⟨0, 1⟩ "1", .name ⟨3, 4⟩ "b"] := by
          decide +kernel
        exact ⟨_, hargs, by decide +kernel, fun _ => ⟨by decide +kernel, by decide +kernel⟩⟩
  arguments := fun h => nomatch h

/-- The form writes to an element of an array and calls a function with as many arguments as it
takes; all that is found on the line is that a constant is written again. -/
theorem validate_accepts_form_enteredAddition :
    additionForm.slots [⟨"add", 2⟩] .assign = .ok ["A[i]", "UserDefined:add(1, b)"] ∧
    enteredAddition.outline.functions = [⟨"add", 2⟩] ∧
    additionForm.WritesPlainly .assign ["A[i]", "UserDefined:add(1, b)"] ∧
    additionForm.CallsPlainly [⟨"add", 2⟩] .assign ["A[i]", "UserDefined:add(1, b)"] ∧
    (∀ finding ∈ enteredAddition.validate, finding.line = 4 →
      finding.fault.isReadingFault = false ∧ finding.fault.isTargetFault = false ∧
        finding.fault.isCallFault = false) ∧
    ⟨4, "4", .constantReassigned "A"⟩ ∈ enteredAddition.validate := by
  have hslots : additionForm.slots [⟨"add", 2⟩] .assign =
      .ok ["A[i]", "UserDefined:add(1, b)"] := by
    decide +kernel
  have hfunctions : enteredAddition.outline.functions = [⟨"add", 2⟩] := by decide +kernel
  have hline : enteredAddition.outline.lines[3] ∈ enteredAddition.outline.lines :=
    List.getElem_mem _
  refine ⟨hslots, hfunctions, writesPlainly_additionForm, callsPlainly_additionForm,
    fun finding hfinding hnumber => ?_, by decide +kernel⟩
  obtain ⟨hreading, htarget, hcall⟩ :=
    validate_accepts_form hslots hfunctions hline rfl rfl finding hfinding hnumber
  exact ⟨hreading, htarget writesPlainly_additionForm, hcall callsPlainly_additionForm⟩

/-- Forms that are accepted, each with what it gives. They write to a number, to a name that reads
as two, and to one that reads as negated; a built-in is called with a call of a function that is
not defined; a function of two parameters with one string that has a comma in it; and a function
by a name that reads as another. -/
def rejectedForms : List (Form × StatementKind × List String) := [
  ([("left_operand_0", "5"), ("right_operand_0", "2")], .assign, ["5", "2"]),
  ([("left_operand_0", "xかつy"), ("right_operand_0", "2")], .initializeArray, ["xかつy", "2"]),
  ([("left_operand_0", "xでない"), ("right_operand_0", "2")], .assign, ["xでない", "2"]),
  ([("left_operand_0", "UserDefined:g(1)"), ("left_function_0", "Square")], .output,
    ["Square(UserDefined:g(1))"]),
  ([("left_operand_0", "\"a,b\""), ("left_function_0", "add")], .output,
    ["UserDefined:add(\"a,b\")"]),
  ([("left_operand_0", "1"), ("left_function_0", "ｆ")], .output, ["UserDefined:ｆ(1)"])]

/-- Two functions, and behind them what the forms give. -/
def rejectedEntries : Block :=
  .ofNodes [
    ⟨⟨"1", .defineFunction, ["add", "x, y"], false, false⟩, .nil⟩,
    ⟨⟨"2", .endFunction, [], false, false⟩, .nil⟩,
    ⟨⟨"3", .defineFunction, ["ｆ", "x"], false, false⟩, .nil⟩,
    ⟨⟨"4", .endFunction, [], false, false⟩, .nil⟩,
    ⟨⟨"5", .assign, ["5", "2"], false, false⟩, .nil⟩,
    ⟨⟨"6", .initializeArray, ["xかつy", "2"], false, false⟩, .nil⟩,
    ⟨⟨"7", .assign, ["xでない", "2"], false, false⟩, .nil⟩,
    ⟨⟨"8", .output, ["Square(UserDefined:g(1))"], false, false⟩, .nil⟩,
    ⟨⟨"9", .output, ["UserDefined:add(\"a,b\")"], false, false⟩, .nil⟩,
    ⟨⟨"10", .output, ["UserDefined:ｆ(1)"], false, false⟩, .nil⟩]

/-- Each of these forms is accepted, and something is found on each of the lines. -/
theorem rejectedEntries_found :
    (∀ entry ∈ rejectedForms,
      entry.1.slots rejectedEntries.outline.functions entry.2.1 = .ok entry.2.2) ∧
    (rejectedEntries.outline.lines.drop 4).map (fun line => (line.kind, line.statement.slots)) =
      rejectedForms.map Prod.snd ∧
    rejectedEntries.validate = [⟨5, "5", .notAssignable "5"⟩, ⟨6, "6", .notAssignable "xかつy"⟩,
      ⟨7, "7", .notAssignable "xでない"⟩, ⟨8, "8", .undefinedFunction "g"⟩,
      ⟨9, "9", .argumentCount "add" 2 1⟩, ⟨10, "10", .undefinedFunction "f"⟩] := by
  refine ⟨by decide +kernel, by decide +kernel, by decide +kernel⟩

end Block

end BlockCode
