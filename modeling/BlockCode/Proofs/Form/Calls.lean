/- # Calls that a form makes

A form wraps operands in calls and counts their arguments by commas, while a slot is read as a
whole. Where the text of an operand reads by itself as arguments, to as many as were counted, the
call in the slot is the call that was checked; and where all calls inside such texts fit, so do
all calls in the slot. The call of a statement of its own is counted by commas on both sides, and
always fits.
-/

import BlockCode.Proofs.Form.Lists
import BlockCode.Proofs.Form.Pieces

namespace BlockCode

/-! ## Texts whose calls fit -/

/-- In front of a break, the text makes no calls but such as fit. -/
def Fits (functions : List FunctionSignature) (text : String) : Prop :=
  ∀ rest, Breaks rest → ReadsApart text.toList rest (Harmless functions)

section Fits

variable {functions : List FunctionSignature} {text text' op : String}

theorem fits_of_plainText (h : PlainText text.toList) : Fits functions text :=
  fun _ hrest => .plain h hrest

theorem readsApart_space {rest : List Char} : ReadsApart [' '] rest (Harmless functions) :=
  ReadsApart.space.mono fun _ hwords => hwords ▸ .of_forall_ne (List.forall_mem_nil _)

/-- Two texts with an operator between them. -/
theorem Fits.spaced (h : Fits functions text) (hop : PlainText op.toList)
    (h' : Fits functions text') : Fits functions (text ++ " " ++ op ++ " " ++ text') := by
  intro rest hrest
  have hbehind := readsApart_space.join (fun _ _ => Harmless.append) (h' rest hrest)
  have hoperator := readsApart_space.join (fun _ _ => Harmless.append)
    ((ReadsApart.plain hop (breaks_cons.mpr (by decide))).join (fun _ _ => Harmless.append) hbehind)
  have hall := (h _ (breaks_cons.mpr (by decide))).join (fun _ _ => Harmless.append) hoperator
  simpa using hall

theorem fits_intercalate {texts : List String} (h : ∀ text ∈ texts, Fits functions text) :
    Fits functions (", ".intercalate texts) := by
  intro rest hrest
  have harmless {words : List (TokenKind × String)}
      (hwords : ∀ word ∈ words, word.1 ≠ .userMarker) : Harmless functions words :=
    .of_forall_ne hwords
  exact ReadsApart.intercalate (fun _ _ => Harmless.append) (harmless (List.forall_mem_nil _))
    (harmless (List.forall_mem_singleton.mpr (by decide))) h hrest

/-- A name with a position makes no call. -/
theorem fits_element {position : String} (h : PlainText text.toList)
    (hposition : PlainText position.toList) :
    Fits functions (text ++ "[" ++ position ++ "]") := by
  intro rest hrest
  have hbracket {c : Char} {kind : TokenKind} (rest : List Char) (hkind : kind ≠ .userMarker)
      (hfold : c ∉ ['か', 'ま'] ∧ foldOutside c = ([c], .outside))
      (htail : ∀ rest, tokenTail? c ([] ++ rest) = some (kind, [])) :
      ReadsApart [c] rest (Harmless functions) :=
    (ReadsApart.of_token (List.forall_mem_singleton.mpr hfold) htail).mono fun _ hwords =>
      hwords ▸ .of_forall_ne (List.forall_mem_singleton.mpr hkind)
  have hclosing : ReadsApart [']'] rest (Harmless functions) :=
    hbracket rest (by decide) (by decide) fun _ => rfl
  have hinner := (ReadsApart.plain hposition (breaks_cons.mpr (by decide))).join
    (fun _ _ => Harmless.append) hclosing
  have hopening : ReadsApart ['['] (position.toList ++ [']'] ++ rest) (Harmless functions) :=
    hbracket _ (by decide) (by decide) fun _ => rfl
  have hall := (ReadsApart.plain h (breaks_cons.mpr (by decide))).join (fun _ _ => Harmless.append)
    (hopening.join (fun _ _ => Harmless.append) hinner)
  simpa using hall

/-- A text that reads by itself as an expression whose calls fit. -/
theorem fits_of_parseExpr {e : Expr} (h : parseExpr (foldGlyphsText text) = .ok e)
    (hfit : Line.userCallFaults functions e = []) : Fits functions text := by
  intro rest hrest
  obtain ⟨tokens, hlex, hspells⟩ := exists_spells_of_parseExpr h
  refine (ReadsApart.of_lex hrest hlex hspells.ne_unclosedString).mono ?_
  rintro _ rfl
  exact ⟨_, userCallFaults_eq_nil_iff.mp hfit, hspells.tallies.2.calls⟩

/-- Whether the text that a slot is read as marks a call of a user-defined function. -/
def marksCall (slot : String) : Bool :=
  ((normalizeText slot).toOption.bind fun text => (lex text).toOption).any fun tokens =>
    tokens.any fun token => token.kind == .userMarker

/-- A slot whose calls fit is read with calls that fit. Negations behind do no harm where there are
no calls. -/
theorem Fits.readsTo (h : Fits functions text)
    (hnegated : marksCall text = true → Unnegated text) : ReadsTo text (Harmless functions) := by
  cases hmarks : marksCall text with
  | true => exact .of_readsApart (hnegated hmarks) (h [] breaks_nil)
  | false =>
      intro read tokens hchecked hlex _
      rw [marksCall, (checkedText_eq_ok_iff.mp hchecked).1] at hmarks
      refine .of_forall_ne (List.forall_mem_map.mpr fun token htoken hkind => ?_)
      have hnone : ∀ token ∈ tokens, token.kind ≠ .userMarker := by
        simpa [Except.toOption, hlex] using hmarks
      exact hnone token htoken hkind

/-- In a slot that reads as an expression, the calls fit. -/
theorem userCallFaults_of_readsTo (h : ReadsTo text (Harmless functions)) {e : Expr}
    (hread : prepare text = .ok e) : Line.userCallFaults functions e = [] := by
  obtain ⟨tokens, hspells, hwords⟩ := h.exists_spells hread
  exact userCallFaults_eq_nil_iff.mpr (hwords.callsFit hspells.tallies.2)

/-- So they do in a slot that reads as a list. -/
theorem userCallFaults_of_readsTo_of_mem (h : ReadsTo text (Harmless functions))
    {exprs : List Expr} (hread : prepareList text = .ok exprs) :
    ∀ e ∈ exprs, Line.userCallFaults functions e = [] := by
  rcases h.exists_derives hread with rfl | ⟨tokens, hderives, hwords⟩
  · exact List.forall_mem_nil _
  · have hfit := hwords.callsFit hderives.tallies.2.2
    exact fun e he => userCallFaults_eq_nil_iff.mpr fun call hcall =>
      hfit call (List.mem_flatMap.mpr ⟨e, he, hcall⟩)

end Fits

/-! ## Operands -/

/-- What a form holds about an operand makes no calls but such as fit. Where the operand is the
arguments of a function, these read by themselves, to as many as the form counts, and the name of
the function is a name. Where it is none, nothing in it ends a string early. -/
def OperandFits (functions : List FunctionSignature) (operand : String) : Option String → Prop
  | none => '\uff02' ∉ operand.toList
  | some name => ∃ args, parseExprList (foldGlyphsText operand) = .ok args ∧
      (∀ e ∈ args, Line.userCallFaults functions e = []) ∧
      (Builtin.ofName? name = none → FoldsToName name name ∧ args.length = argumentsIn operand)

namespace Form

variable {form : Form} {functions : List FunctionSignature} {kind : StatementKind} {side : Side}

/-- The texts that a form holds make no calls but such as fit, each read by itself, and nothing in
a slot that makes calls is negated from behind. -/
structure CallsPlainly (form : Form) (functions : List FunctionSignature) (kind : StatementKind)
    (slots : List String) : Prop where
  unnegated : ∀ slot ∈ slots, marksCall slot = true → Unnegated slot
  operands : ∀ side i operand, form.operand? side i = some operand →
    OperandFits functions operand (form.operandField? side .function i)
  arguments : kind = .callFunction → ∀ item ∈ form.listItems .arguments,
    ∃ e, parseExpr (foldGlyphsText item) = .ok e ∧ Line.userCallFaults functions e = []

/-- The text of an operand makes no calls but such as fit. -/
theorem Enters.fits {i : Nat} {text : String} (h : form.Enters functions side i text)
    (hoperand : ∀ operand, form.operand? side i = some operand →
      OperandFits functions operand (form.operandField? side .function i)) :
    Fits functions text := by
  cases h with
  | builtin hentered hname hbuiltin =>
      have hfits := hoperand _ hentered
      rw [hname] at hfits
      obtain ⟨args, hread, hfit, -⟩ := hfits
      exact fun rest _ => .builtinCall _ hread hfit
  | @user _ name f hentered hname hbuiltin hfind hcount =>
      have hfits := hoperand _ hentered
      rw [hname] at hfits
      obtain ⟨args, hread, hfit, hcall⟩ := hfits
      obtain ⟨htyped, hlength⟩ := hcall hbuiltin
      refine fun rest _ => .userCall htyped hread ?_ hfit
      rw [Line.callFaults, hfind]
      exact if_pos (hcount.symm.trans hlength.symm)
  | number _ _ _ hnumber => exact fits_of_plainText (plainText_of_isNumberText hnumber)
  | string hentered hname =>
      have hfits := hoperand _ hentered
      rw [hname] at hfits
      exact fun rest hrest => .stringLiteral hfits hrest
  | boolean _ _ _ htruth =>
      rw [isTruthWord, Bool.or_eq_true, beq_iff_eq, beq_iff_eq] at htruth
      rcases htruth with heq | heq <;>
        · rw [heq]
          exact fits_of_plainText (by decide)
  | plain _ _ hvariable => exact fits_of_plainText (plainText_of_isVariableName hvariable)
  | element _ _ hvariable hposition =>
      refine fits_element (plainText_of_isVariableName hvariable) ?_
      rw [trim, String.toList_ofList]
      exact plainText_trimChars_iff.mpr (plainText_of_isPositionText hposition)

theorem plainText_checkOperator {place : FormPlace} {entered? : Option String}
    (h : (checkOperator place entered?).errors = []) :
    PlainText (checkOperator place entered?).value.toList := by
  cases entered? with
  | none => cases h
  | some entered =>
      exact plainText_of_isBinaryOperator
        (Checked.errors_require_eq_nil_iff.mp (Checked.errors_bind_eq_nil_iff.mp h).1)

section Sides

variable (hoperands : ∀ i operand, form.operand? side i = some operand →
  OperandFits functions operand (form.operandField? side .function i))

include hoperands

theorem fits_operandText {i : Nat} (h : (form.operandText functions side i).errors = []) :
    Fits functions (form.operandText functions side i).value :=
  (enters_of_operandText h).fits (hoperands i)

/-- Operands that are joined to a text. -/
theorem fits_joinedFrom {i count : Nat}
    (h : (form.joinedFrom functions side i count).errors = []) {text : String}
    (htext : Fits functions text) :
    Fits functions (text ++ (form.joinedFrom functions side i count).value) := by
  induction count generalizing i text with
  | zero =>
      change Fits functions (text ++ "")
      rwa [String.append_empty]
  | succ count ih =>
      rw [joinedFrom] at h ⊢
      obtain ⟨hop, h⟩ := Checked.errors_bind_eq_nil_iff.mp h
      obtain ⟨hoperand, h⟩ := Checked.errors_bind_eq_nil_iff.mp h
      obtain ⟨hrest, -⟩ := Checked.errors_bind_eq_nil_iff.mp h
      have hjoined := ih hrest (htext.spaced (plainText_checkOperator hop)
        (fits_operandText hoperands hoperand))
      simp only [Checked.value_bind, Checked.value_pure]
      simpa only [String.append_assoc] using hjoined

/-- All operands of a side. -/
theorem fits_sideText (h : (form.sideText functions side).errors = []) :
    Fits functions (form.sideText functions side).value := by
  rw [sideText] at h ⊢
  cases hcount : form.operandCount side with
  | zero =>
      rw [hcount] at h
      cases h
  | succ count =>
      rw [hcount] at h
      obtain ⟨hfirst, h⟩ := Checked.errors_bind_eq_nil_iff.mp h
      exact fits_joinedFrom hoperands (Checked.errors_bind_eq_nil_iff.mp h).1
        (fits_operandText hoperands hfirst)

end Sides

/-! ## Slots -/

section Slots

variable (hoperands : ∀ side i operand, form.operand? side i = some operand →
  OperandFits functions operand (form.operandField? side .function i))

include hoperands

/-- Each operand of a list of them. -/
theorem fits_mapM_operandText {is : List Nat}
    (h : (is.mapM (form.operandText functions side)).errors = []) :
    ∀ text ∈ (is.mapM (form.operandText functions side)).value, Fits functions text := by
  rw [Checked.errors_mapM_eq_nil_iff] at h
  rw [Checked.value_mapM, List.forall_mem_map]
  exact fun i hi => fits_operandText (hoperands side) (h i hi)

theorem fits_target {constant : Bool} (h : (form.target functions constant).errors = []) :
    Fits functions (form.target functions constant).value := by
  rcases exists_of_target h with ⟨-, name, -, hvalue, hvariable⟩ | ⟨-, henters⟩
  · rw [hvalue]
    exact fits_of_plainText (plainText_of_isVariableName hvariable)
  · exact henters.fits (hoperands .left 0)

theorem fits_outputItems (h : (form.outputItems functions).errors = []) :
    ∀ text ∈ (form.outputItems functions).value, Fits functions text := by
  rw [outputItems] at h ⊢
  split at h
  · cases h
  · next hcount =>
    rw [if_neg hcount]
    split at h
    · next hany =>
      rw [if_pos hany]
      exact List.forall_mem_singleton.mpr
        (fits_sideText (hoperands .left) (Checked.errors_bind_eq_nil_iff.mp h).1)
    · next hany =>
      rw [if_neg hany]
      exact fits_mapM_operandText hoperands h

theorem fits_condition (h : (form.condition functions).errors = []) :
    Fits functions (form.condition functions).value := by
  rw [condition] at h ⊢
  obtain ⟨hleft, h⟩ := Checked.errors_bind_eq_nil_iff.mp h
  have hleft := fits_sideText (hoperands .left) hleft
  rw [Checked.value_bind]
  dsimp only at h ⊢
  cases hfield : form.field? .comparisonOperator with
  | none => exact hleft
  | some entered =>
      rw [hfield] at h
      obtain ⟨hop, h⟩ := Checked.errors_bind_eq_nil_iff.mp h
      obtain ⟨hright, -⟩ := Checked.errors_bind_eq_nil_iff.mp h
      exact hleft.spaced (plainText_checkOperator hop) (fits_sideText (hoperands .right) hright)

end Slots

/-- The slots of a form whose calls are plain make no calls but such as fit. The label of a region
is no expression. -/
theorem fits_enteredSlots {slots : List String}
    (h : (form.enteredSlots functions kind).errors = [])
    (hplain : form.CallsPlainly functions kind slots) (hkind : kind ≠ .region) :
    ∀ slot ∈ (form.enteredSlots functions kind).value, Fits functions slot := by
  have hoperands := hplain.operands
  have of_name {name : String} (hname : isVariableName name = true) : Fits functions name :=
    fits_of_plainText (plainText_of_isVariableName hname)
  have of_pair {first second : String} (hfirst : Fits functions first)
      (hsecond : Fits functions second) : ∀ slot ∈ [first, second], Fits functions slot :=
    List.forall_mem_cons.mpr ⟨hfirst, List.forall_mem_singleton.mpr hsecond⟩
  cases kind with
  | assign =>
      rw [enteredSlots] at h ⊢
      obtain ⟨htarget, h⟩ := Checked.errors_bind_eq_nil_iff.mp h
      exact of_pair (fits_target hoperands htarget)
        (fits_sideText (hoperands .right) (Checked.errors_bind_eq_nil_iff.mp h).1)
  | initializeArray =>
      rw [enteredSlots] at h ⊢
      obtain ⟨hname, h⟩ := Checked.errors_bind_eq_nil_iff.mp h
      obtain ⟨name, -, hvalue, hvariable⟩ := exists_of_leftName hname
      exact of_pair (hvalue ▸ of_name hvariable) (fits_intercalate
        (fits_mapM_operandText hoperands (Checked.errors_bind_eq_nil_iff.mp h).1))
  | bulkAssign =>
      rw [enteredSlots] at h ⊢
      obtain ⟨hname, h⟩ := Checked.errors_bind_eq_nil_iff.mp h
      obtain ⟨name, -, hvalue, hvariable⟩ := exists_of_leftName hname
      exact of_pair (hvalue ▸ of_name hvariable)
        (fits_sideText (hoperands .right) (Checked.errors_bind_eq_nil_iff.mp h).1)
  | increment | decrement =>
      rw [enteredSlots] at h ⊢
      obtain ⟨htarget, h⟩ := Checked.errors_bind_eq_nil_iff.mp h
      have htarget := fits_target hoperands htarget
      rw [Checked.value_bind]
      split at h
      · next hnone =>
        rw [if_pos hnone]
        exact of_pair htarget (fits_of_plainText (by decide))
      · next hsome =>
        rw [if_neg hsome]
        exact of_pair htarget
          (fits_sideText (hoperands .right) (Checked.errors_bind_eq_nil_iff.mp h).1)
  | output => exact fits_outputItems hoperands h
  | ifThen | elseIf | whileLoop | doWhile =>
      exact List.forall_mem_singleton.mpr
        (fits_condition hoperands (Checked.errors_bind_eq_nil_iff.mp h).1)
  | forIncrement | forDecrement =>
      obtain ⟨counter, first, last, step, -, hvalue, hname, hbounds⟩ := exists_of_loopHeader h
      rw [enteredSlots, hvalue]
      refine List.forall_mem_cons.mpr ⟨of_name hname, fun bound hbound => ?_⟩
      rcases hbounds bound hbound with hnumber | hvariable
      · exact fits_of_plainText (plainText_of_isNumberText hnumber)
      · exact of_name hvariable
  | defineFunction =>
      rw [enteredSlots] at h ⊢
      obtain ⟨hname, h⟩ := Checked.errors_bind_eq_nil_iff.mp h
      obtain ⟨name, -, hvalue, hvariable⟩ := exists_of_nameField hname
      have hitems := errors_listField_eq_nil_iff.mp (Checked.errors_bind_eq_nil_iff.mp h).1
      refine of_pair (hvalue ▸ of_name hvariable) (fits_intercalate fun item hitem => ?_)
      rw [value_listField] at hitem
      exact of_name (Checked.errors_require_eq_nil_iff.mp (hitems item hitem))
  | callFunction =>
      obtain ⟨name, _, -, hvalue, hvariable, -⟩ := exists_of_callSlots h
      rw [enteredSlots, hvalue]
      refine of_pair (of_name hvariable) (fits_intercalate fun item hitem => ?_)
      obtain ⟨e, hread, hfit⟩ := hplain.arguments rfl item hitem
      exact fits_of_parseExpr hread hfit
  | region => exact absurd rfl hkind
  | otherwise | endIf | endWhile | endDoWhile | endFor | endFunction | breakLoop | endRegion =>
      exact List.forall_mem_nil _

section Statements

variable {s : Statement}

/-- The expressions in a statement that a form gives make no calls but such as fit, where the
calls of the form are plain. -/
theorem userCallFaults_of_slots (h : form.slots functions s.kind = .ok s.slots)
    (hplain : form.CallsPlainly functions s.kind s.slots) {slot : Nat}
    (hslot : slot ∈ s.expressionSlots) {exprs : List Expr} (hread : s.readSlot slot = .ok exprs) :
    ∀ e ∈ exprs, Line.userCallFaults functions e = [] := by
  obtain ⟨herrors, hvalue, -⟩ := slots_eq_ok_iff.mp h
  have hkind : s.kind ≠ .region := by
    intro hregion
    rw [Statement.expressionSlots, hregion] at hslot
    cases hslot
  have hfits := fits_enteredSlots herrors hplain hkind
  rw [hvalue] at hfits
  have hmem := Statement.slot_mem hslot
  have hreads := (hfits _ hmem).readsTo (hplain.unnegated _ hmem)
  rw [Statement.readSlot] at hread
  split at hread
  · exact userCallFaults_of_readsTo_of_mem hreads hread
  · obtain ⟨e, hprepare, rfl⟩ := map_eq_ok_iff.mp hread
    exact List.forall_mem_singleton.mpr (userCallFaults_of_readsTo hreads hprepare)

/-- A call that a form gives fits as a statement of its own. -/
theorem callFaults_of_slots (h : form.slots functions s.kind = .ok s.slots)
    (hkind : s.kind = .callFunction) :
    Line.callFaults functions (trim (s.slot 0)) (listLength (s.slot 1)) = [] := by
  obtain ⟨herrors, hvalue, -⟩ := slots_eq_ok_iff.mp h
  rw [hkind, enteredSlots] at herrors hvalue
  obtain ⟨name, f, hfield, hslots, -, hfind, hcount, hitems⟩ := exists_of_callSlots herrors
  have htrim : trim name = name := by
    obtain ⟨text, -, rfl⟩ := Option.map_eq_some_iff.mp (Option.filter_eq_some_iff.mp hfield).1
    rw [trim, trim, String.toList_ofList, trimChars_trimChars]
  rw [hslots] at hvalue
  rw [Statement.slot, Statement.slot, ← hvalue]
  change Line.callFaults functions (trim name) (listLength (", ".intercalate _)) = []
  rw [htrim, listLength_listItems hitems, Line.callFaults, hfind]
  exact if_pos hcount

end Statements

end Form

end BlockCode
