/- # Slots that a form gives

A form is gone through field by field, and everything that is wrong is kept. It gives slots only
if nothing was wrong; then every step on the way was without errors. The slots that it gives are
as many as the kind of the statement has, their brackets are in order together, and each of them
reads.
-/

import BlockCode.Form.Slots
import BlockCode.Proofs.Check.Slots

namespace BlockCode

/-! ## Checked values -/

namespace Checked

variable {α β : Type}

theorem value_pure (a : α) : (pure a : Checked α).value = a :=
  rfl

theorem errors_pure (a : α) : (pure a : Checked α).errors = [] :=
  rfl

theorem value_bind (x : Checked α) (f : α → Checked β) : (x >>= f).value = (f x.value).value :=
  rfl

/-- Two steps are without errors when the first is, and the second is on its value. -/
theorem errors_bind_eq_nil_iff {x : Checked α} {f : α → Checked β} :
    (x >>= f).errors = [] ↔ x.errors = [] ∧ (f x.value).errors = [] :=
  List.append_eq_nil_iff

theorem errors_require_eq_nil_iff {condition : Bool} {place : FormPlace} {problem : FormProblem} :
    (require condition place problem).errors = [] ↔ condition = true := by
  rw [require]
  split
  · next h => exact iff_of_true rfl h
  · next h => exact iff_of_false (List.cons_ne_nil _ _) h

instance : LawfulMonad Checked :=
  LawfulMonad.mk' Checked
    (fun x => by
      change (⟨x.value, x.errors ++ []⟩ : Checked _) = x
      rw [List.append_nil])
    (fun _ _ => rfl)
    fun x f g => by
      change (⟨_, (x.errors ++ _) ++ _⟩ : Checked _) = ⟨_, x.errors ++ (_ ++ _)⟩
      rw [List.append_assoc]
      rfl

variable {items : List α} {f : α → Checked β}

/-- Going through a list gives the values of its items. -/
theorem value_mapM : (items.mapM f).value = items.map fun a => (f a).value := by
  induction items with
  | nil => rfl
  | cons a items ih => rw [List.mapM_cons, value_bind, value_bind, ih, value_pure, List.map_cons]

/-- Going through a list is without errors when each of its items is. -/
theorem errors_mapM_eq_nil_iff :
    (items.mapM f).errors = [] ↔ ∀ a ∈ items, (f a).errors = [] := by
  induction items with
  | nil => exact iff_of_true rfl (List.forall_mem_nil _)
  | cons a items ih =>
      rw [List.mapM_cons, errors_bind_eq_nil_iff, errors_bind_eq_nil_iff, ih, List.forall_mem_cons]
      simp only [errors_pure, and_true]

end Checked

/-! ## Operands -/

namespace Form

variable {form : Form} {functions : List FunctionSignature}

/-- The type of an operand that is there: the one that is declared, if that is one, or else the
one that the operand seems to have. -/
def operandType? (form : Form) (side : Side) (i : Nat) (operand : String) : Option OperandType :=
  match form.operandField? side .type i with
  | none => some (.infer operand)
  | some declared => OperandType.ofName? declared

/-- The texts that an operand can give when it is in order, each with what was checked on the way.
-/
inductive Enters (form : Form) (functions : List FunctionSignature) (side : Side) (i : Nat) :
    String → Prop
  | builtin {operand name : String} {function : Builtin}
      (hoperand : form.operand? side i = some operand)
      (hname : form.operandField? side .function i = some name)
      (hbuiltin : Builtin.ofName? name = some function) :
      Enters form functions side i (function.name ++ "(" ++ operand ++ ")")
  | user {operand name : String} {f : FunctionSignature}
      (hoperand : form.operand? side i = some operand)
      (hname : form.operandField? side .function i = some name)
      (hbuiltin : Builtin.ofName? name = none) (hfind : findFunction? functions name = some f)
      (hcount : argumentsIn operand = f.parameters) :
      Enters form functions side i (userMarkerText ++ name ++ "(" ++ operand ++ ")")
  | number {operand : String} (hoperand : form.operand? side i = some operand)
      (hname : form.operandField? side .function i = none)
      (htype : form.operandType? side i operand = some .number)
      (hnumber : isNumberText operand = true) : Enters form functions side i operand
  | string {operand : String} (hoperand : form.operand? side i = some operand)
      (hname : form.operandField? side .function i = none)
      (htype : form.operandType? side i operand = some .string) :
      Enters form functions side i (stringLiteral operand)
  | boolean {operand : String} (hoperand : form.operand? side i = some operand)
      (hname : form.operandField? side .function i = none)
      (htype : form.operandType? side i operand = some .boolean)
      (htruth : isTruthWord operand = true) : Enters form functions side i (lowerAscii operand)
  | plain {operand : String} (hoperand : form.operand? side i = some operand)
      (hname : form.operandField? side .function i = none)
      (hvariable : isVariableName operand = true) : Enters form functions side i operand
  | element {operand position : String} (hoperand : form.operand? side i = some operand)
      (hname : form.operandField? side .function i = none)
      (hvariable : isVariableName operand = true) (hposition : isPositionText position = true) :
      Enters form functions side i (operand ++ "[" ++ trim (foldGlyphsText position) ++ "]")

/-- An operand of a known type that is in order gives one of these texts. -/
theorem enters_of_operandOfType {side : Side} {i : Nat} {operand : String} {type : OperandType}
    (hoperand : form.operand? side i = some operand)
    (htype : form.operandType? side i operand = some type)
    (h : (form.operandOfType functions side i operand type).errors = []) :
    form.Enters functions side i (form.operandOfType functions side i operand type).value := by
  rw [operandOfType] at h ⊢
  cases hname : form.operandField? side .function i with
  | some name =>
      rw [hname] at h
      dsimp only at h ⊢
      cases hbuiltin : Builtin.ofName? name with
      | some function => exact .builtin hoperand hname hbuiltin
      | none =>
          rw [hbuiltin] at h
          dsimp only at h ⊢
          rw [userCall] at h ⊢
          cases hfind : findFunction? functions name with
          | none =>
              rw [hfind] at h
              cases h
          | some f =>
              rw [hfind] at h
              have hcount :=
                Checked.errors_require_eq_nil_iff.mp (Checked.errors_bind_eq_nil_iff.mp h).1
              exact .user hoperand hname hbuiltin hfind (eq_of_beq hcount)
  | none =>
      rw [hname] at h
      dsimp only at h ⊢
      split at h
      · cases h
      · rw [typedOperand.eq_def] at h ⊢
        cases type with
        | number =>
            have hnumber :=
              Checked.errors_require_eq_nil_iff.mp (Checked.errors_bind_eq_nil_iff.mp h).1
            exact .number hoperand hname htype hnumber
        | string => exact .string hoperand hname htype
        | boolean =>
            dsimp only at h ⊢
            split at h
            · next htruth =>
              rw [if_pos htruth]
              exact .boolean hoperand hname htype htruth
            · cases h
        | _ =>
            obtain ⟨hvariable, hrest⟩ := Checked.errors_bind_eq_nil_iff.mp h
            have hvariable := Checked.errors_require_eq_nil_iff.mp hvariable
            cases hfield : form.operandField? side .position i with
            | none => exact .plain hoperand hname hvariable
            | some position =>
                rw [hfield] at hrest
                have hposition := Checked.errors_require_eq_nil_iff.mp
                  (Checked.errors_bind_eq_nil_iff.mp hrest).1
                exact .element hoperand hname hvariable hposition

/-- An operand that is in order gives one of these texts. -/
theorem enters_of_operandText {side : Side} {i : Nat}
    (h : (form.operandText functions side i).errors = []) :
    form.Enters functions side i (form.operandText functions side i).value := by
  rw [operandText] at h ⊢
  cases hoperand : form.operand? side i with
  | none =>
      rw [hoperand] at h
      cases h
  | some operand =>
      rw [hoperand] at h
      dsimp only at h ⊢
      cases hdeclared : form.operandField? side .type i with
      | none =>
          rw [hdeclared] at h
          refine enters_of_operandOfType hoperand ?_ h
          rw [operandType?, hdeclared]
      | some declared =>
          rw [hdeclared] at h
          dsimp only at h ⊢
          split at h
          · next type htype =>
            refine enters_of_operandOfType hoperand ?_ h
            rw [operandType?, hdeclared]
            exact htype
          · cases h

/-! ## Fields -/

/-- What has to be a plain name is there and is one. -/
theorem exists_of_checkName {text? : Option String} {place : FormPlace} {name : Checked String}
    (hname : name = match text? with
      | none => Checked.given none place
      | some text => do
        checkName place text
        return text) (h : name.errors = []) :
    ∃ text, text? = some text ∧ name.value = text ∧ isVariableName text = true := by
  subst hname
  cases text? with
  | none => cases h
  | some text =>
      exact ⟨text, rfl, rfl,
        Checked.errors_require_eq_nil_iff.mp (Checked.errors_bind_eq_nil_iff.mp h).1⟩

theorem exists_of_nameField {field : StatementField} (h : (form.nameField field).errors = []) :
    ∃ name, form.field? field = some name ∧ (form.nameField field).value = name ∧
      isVariableName name = true :=
  exists_of_checkName rfl h

theorem exists_of_leftName (h : form.leftName.errors = []) :
    ∃ name, form.operand? .left 0 = some name ∧ form.leftName.value = name ∧
      isVariableName name = true :=
  exists_of_checkName rfl h

/-- What is written to is a new constant, or what the operand gives. -/
theorem exists_of_target {constant : Bool} (h : (form.target functions constant).errors = []) :
    (constant = true ∧ ∃ name, form.operand? .left 0 = some name ∧
      (form.target functions constant).value = name ∧ isVariableName name = true) ∨
    constant = false ∧ form.Enters functions .left 0 (form.target functions constant).value := by
  rw [target] at h ⊢
  cases hname : form.operand? .left 0 with
  | none =>
      rw [hname] at h
      cases h
  | some name =>
      rw [hname] at h
      cases constant with
      | true =>
          have hconstant := Checked.errors_require_eq_nil_iff.mp
            (Checked.errors_bind_eq_nil_iff.mp h).1
          exact .inl ⟨rfl, name, rfl, rfl, (Bool.and_eq_true_iff.mp hconstant).1⟩
      | false => exact .inr ⟨rfl, enters_of_operandText h⟩

/-- The items of a list field, each as it is checked. -/
def listItems (form : Form) (field : StatementField) : List String :=
  match form.field? field with
  | none => []
  | some text => (stringPiecesAt ',' (foldGlyphsText text)).map trim

section Lists

variable {field : StatementField} {check : String → Checked Unit}

theorem value_listField : (form.listField field check).value = form.listItems field := by
  rw [listField, listItems]
  cases form.field? field with
  | none => rfl
  | some text =>
      dsimp only
      rw [Checked.value_mapM]
      rfl

theorem errors_listField_eq_nil_iff : (form.listField field check).errors = [] ↔
    ∀ item ∈ form.listItems field, (check item).errors = [] := by
  rw [listField, listItems]
  cases form.field? field with
  | none => exact iff_of_true rfl (List.forall_mem_nil _)
  | some text =>
      dsimp only
      rw [Checked.errors_mapM_eq_nil_iff, List.forall_mem_map]
      simp only [Checked.errors_bind_eq_nil_iff, Checked.errors_pure, and_true]

end Lists

/-- A bound or a step is a number or a name. -/
theorem exists_of_loopBound {field : StatementField} (h : (form.loopBound field).errors = []) :
    isNumberText (form.loopBound field).value = true ∨
      isVariableName (form.loopBound field).value = true := by
  rw [loopBound] at h ⊢
  cases hfield : form.field? field with
  | none =>
      rw [hfield] at h
      cases h
  | some text =>
      rw [hfield] at h
      exact Bool.or_eq_true_iff.mp
        (Checked.errors_require_eq_nil_iff.mp (Checked.errors_bind_eq_nil_iff.mp h).1)

/-- The header of a counting loop has a name, and three bounds. -/
theorem exists_of_loopHeader (h : form.loopHeader.errors = []) :
    ∃ counter first last step, form.field? .loopVariable = some counter ∧
      form.loopHeader.value = [counter, first, last, step] ∧ isVariableName counter = true ∧
        ∀ bound ∈ [first, last, step], isNumberText bound = true ∨ isVariableName bound = true := by
  rw [loopHeader] at h ⊢
  obtain ⟨hcounter, h⟩ := Checked.errors_bind_eq_nil_iff.mp h
  obtain ⟨hfirst, h⟩ := Checked.errors_bind_eq_nil_iff.mp h
  obtain ⟨hlast, h⟩ := Checked.errors_bind_eq_nil_iff.mp h
  obtain ⟨counter, hfield, hvalue, hname⟩ := exists_of_nameField hcounter
  have hfirst := exists_of_loopBound hfirst
  have hlast := exists_of_loopBound hlast
  rw [Checked.value_bind, Checked.value_bind, Checked.value_bind, hvalue]
  dsimp only at h ⊢
  split at h
  · next hstep =>
    have hbound := exists_of_loopBound (Checked.errors_bind_eq_nil_iff.mp h).1
    rw [if_pos hstep]
    refine ⟨counter, _, _, _, hfield, rfl, hname, ?_⟩
    simp only [List.forall_mem_cons]
    exact ⟨hfirst, hlast, hbound, List.forall_mem_nil _⟩
  · next hstep =>
    rw [if_neg hstep]
    refine ⟨counter, _, _, _, hfield, rfl, hname, ?_⟩
    simp only [List.forall_mem_cons]
    exact ⟨hfirst, hlast, .inl (by decide +kernel), List.forall_mem_nil _⟩

/-- A call has the name of a function that is defined, and as many arguments as that takes, none of
which is blank. -/
theorem exists_of_callSlots (h : (form.callSlots functions).errors = []) :
    ∃ name f, form.field? .functionName = some name ∧
      (form.callSlots functions).value = [name, ", ".intercalate (form.listItems .arguments)] ∧
      isVariableName name = true ∧ findFunction? functions name = some f ∧
      f.parameters = (form.listItems .arguments).length ∧
      ∀ item ∈ form.listItems .arguments, item ≠ "" := by
  rw [callSlots] at h ⊢
  obtain ⟨hname, h⟩ := Checked.errors_bind_eq_nil_iff.mp h
  obtain ⟨hitems, h⟩ := Checked.errors_bind_eq_nil_iff.mp h
  obtain ⟨name, hfield, hvalue, hvariable⟩ := exists_of_nameField hname
  have hitems := errors_listField_eq_nil_iff.mp hitems
  have hfilled : (!name.isEmpty) = true := (Option.filter_eq_some_iff.mp hfield).2
  rw [Checked.value_bind, Checked.value_bind, hvalue, value_listField]
  rw [hvalue, value_listField] at h
  dsimp only at h ⊢
  rw [if_pos hfilled] at h ⊢
  cases hfind : findFunction? functions name with
  | none =>
      rw [hfind] at h
      cases h
  | some f =>
      rw [hfind] at h
      have hcount := Checked.errors_require_eq_nil_iff.mp (Checked.errors_bind_eq_nil_iff.mp h).1
      refine ⟨name, f, hfield, rfl, hvariable, hfind, eq_of_beq hcount, fun item hitem => ?_⟩
      have hpresent := Checked.errors_require_eq_nil_iff.mp (hitems item hitem)
      simpa using hpresent

end Form

/-! ## The slots as a whole -/

namespace Form

variable {form : Form} {functions : List FunctionSignature} {kind : StatementKind}
  {slots : List String}

/-- A form gives slots when its fields are in order and so are the slots that they give. -/
theorem slots_eq_ok_iff :
    form.slots functions kind = .ok slots ↔
      (form.enteredSlots functions kind).errors = [] ∧
        (form.enteredSlots functions kind).value = slots ∧
        ({ id := "", kind, slots } : Statement).slotErrors = [] := by
  rw [Form.slots]
  cases herrors : (form.enteredSlots functions kind).errors with
  | cons e errors => simp
  | nil =>
      rw [List.isEmpty_nil, if_pos rfl]
      constructor
      · intro h
        split at h
        · next hslots =>
          cases h
          exact ⟨rfl, rfl, List.map_eq_nil_iff.mp (List.isEmpty_iff.mp hslots)⟩
        · cases h
      · rintro ⟨-, rfl, hslots⟩
        rw [hslots, List.map_nil, List.isEmpty_nil, if_pos rfl]

/-- The fields of a form give a statement the slots of its kind. -/
theorem length_enteredSlots (form : Form) (functions : List FunctionSignature) {n : Nat}
    (h : kind.arity? = some n) : (form.enteredSlots functions kind).value.length = n := by
  cases kind with
  | output => cases h
  | increment | decrement =>
      cases h
      rw [enteredSlots, Checked.value_bind]
      split <;> rfl
  | forIncrement | forDecrement =>
      cases h
      change form.loopHeader.value.length = 4
      simp only [loopHeader, Checked.value_bind]
      split <;> rfl
  | callFunction =>
      cases h
      change (form.callSlots functions).value.length = 2
      simp only [callSlots, Checked.value_bind]
      split
      · split <;> rfl
      · rfl
  | _ =>
      cases h
      rfl

/-- An output has something to put out. -/
theorem enteredSlots_output_ne_nil (form : Form) (functions : List FunctionSignature) :
    (form.enteredSlots functions .output).value ≠ [] := by
  change (form.outputItems functions).value ≠ []
  rw [outputItems]
  split
  · exact List.cons_ne_nil _ _
  · next hcount =>
    split
    · exact List.cons_ne_nil _ _
    · rw [Checked.value_mapM]
      simpa using hcount

end Form

theorem StatementKind.lt_of_mem_expressionSlots {kind : StatementKind} {count slot : Nat}
    (h : slot ∈ kind.expressionSlots count) : slot < count := by
  cases kind with
  | output => exact List.mem_range.mp h
  | region => cases h
  | _ => exact of_decide_eq_true (List.mem_filter.mp h).2

namespace Statement

variable {s : Statement}

/-- A slot that holds an expression is there. -/
theorem slot_mem {slot : Nat} (h : slot ∈ s.expressionSlots) : s.slot slot ∈ s.slots := by
  have hlt : slot < s.slots.length := StatementKind.lt_of_mem_expressionSlots h
  rw [Statement.slot, List.getD_eq_getElem?_getD, List.getElem?_eq_getElem hlt]
  exact List.getElem_mem hlt

/-- Slots that are in order as a whole have their brackets in order, and each of them reads. -/
theorem slotErrors_eq_nil_iff :
    s.slotErrors = [] ↔ bracketErrors (s.slots.map String.toList) = [] ∧
      ∀ slot ∈ s.expressionSlots, ∃ exprs, s.readSlot slot = .ok exprs := by
  rw [slotErrors]
  split
  · next hbrackets =>
    rw [List.filterMap_eq_nil_iff]
    refine ⟨fun h => ⟨hbrackets, fun slot hslot => ?_⟩, fun h slot hslot => ?_⟩
    · have hread := h slot hslot
      split at hread
      · next exprs hexprs => exact ⟨exprs, hexprs⟩
      · cases hread
    · obtain ⟨exprs, hread⟩ := h.2 slot hslot
      rw [hread]
  · next hbrackets =>
    refine iff_of_false (fun h => hbrackets (List.map_eq_nil_iff.mp h)) fun h => hbrackets h.1

/-- Whether slots are in order depends on nothing but the kind and the slots. -/
theorem slotErrors_congr {t : Statement} (hkind : s.kind = t.kind) (hslots : s.slots = t.slots) :
    s.slotErrors = t.slotErrors := by
  cases s
  cases t
  cases hkind
  cases hslots
  rfl

end Statement

end BlockCode
