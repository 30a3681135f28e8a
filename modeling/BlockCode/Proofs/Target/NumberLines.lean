/- # Numbers in the lines of a statement

A statement shows the numerals of all its expressions in one line, in every target. Only a counting
loop does not print all that stands in it: a step of one is left out where the target counts by one
by itself, Python prints the end of a range as the value behind it, and a step down is printed with
the other sign. A loop over fractions advances in the line that closes it, in Python.
-/

import BlockCode.Proofs.Target.Counting
import BlockCode.Proofs.Target.PrintedNumerals
import BlockCode.Target.Passage

namespace BlockCode

/-- Whether the action is made from the slots of one statement, and is no counting loop. -/
def Action.isPlain : Action → Bool
  | .assign .. | .initializeArray .. | .fillArray .. | .change .. | .output .. | .ifThen ..
  | .elseIf .. | .whileLoop .. | .endDoWhile .. | .defineFunction .. | .callFunction .. => true
  | _ => false

/-- What the action is about is printed with its numerals, with parentheses around a whole
expression or without them. -/
structure Action.Printable (p : ExprPrinter) (escapes : Bool) (action : Action) : Prop where
  exprs : ∀ e ∈ action.exprs, Shows escapes (p.text e) e.numerals
  ungrouped : ∀ e ∈ action.exprs, Shows escapes (p.text e.ungrouped) e.numerals
  name : ∀ name ∈ Vba.functionName? action, Shows escapes (p.name name) []

/-- One of the lines is code and shows the numerals. -/
def ShownIn (escapes : Bool) (numerals : List (List Char)) (lines : List CodeLine) : Prop :=
  ∃ line ∈ lines, line.isCode = true ∧ Shows escapes line.text numerals

theorem ShownIn.single {escapes : Bool} {numerals numerals' : List (List Char)} {line : CodeLine}
    (h : Shows escapes line.text numerals') (hperm : numerals.Perm numerals')
    (hcode : line.isCode = true) : ShownIn escapes numerals [line] :=
  ⟨line, .head _, hcode, h.mono hperm.subperm⟩

section Lines

variable {p : ExprPrinter} {action : Action} {escapes : Bool} (h : action.Printable p escapes)

include h

theorem JavaScript.shownIn_lines (hplain : action.isPlain = true) :
    ShownIn escapes (action.exprs.flatMap Expr.numerals) (JavaScript.lines p action) := by
  cases action with
  | assign constant target value =>
      have hconst : Opens (if constant then "const " else "") := by cases constant <;> decide
      exact .single ((((hconst.leads.append (h.exprs target (.head _))).leads (by decide)).append
        (h.exprs value (.tail _ (.head _)))).close (by decide)) (by simp [Action.exprs]) rfl
  | initializeArray target items =>
      exact .single ((((h.exprs target (.head _)).leads (by decide)).append
        (.commaList fun e he => h.exprs e (.tail _ he))).close (by decide))
        (by simp [Action.exprs]) rfl
  | fillArray target value =>
      exact .single ((((h.exprs target (.head _)).leads (by decide)).append
        (h.exprs value (.tail _ (.head _)))).close (by decide)) (by simp [Action.exprs]) rfl
  | change direction target amount =>
      cases direction
      all_goals
        exact .single ((((h.exprs target (.head _)).leads (by decide)).append
          (h.exprs amount (.tail _ (.head _)))).close (by decide)) (by simp [Action.exprs]) rfl
  | output items =>
      exact .single (((by decide : Opens "console.log(").leads.append
        (.commaList h.exprs)).close (by decide)) (by simp [Action.exprs]) rfl
  | ifThen e | elseIf e | whileLoop e | endDoWhile e =>
      have hcondition : Shows escapes (condition p e) ([] ++ e.numerals) :=
        ((by decide : Opens "(").leads.append (h.ungrouped e (.head _))).close (by decide)
      exact .single (((by decide : Opens _).leads.append hcondition).close (by decide))
        (by simp [Action.exprs]) rfl
  | defineFunction name parameters =>
      exact .single (((((by decide : Opens "function ").leads.append (h.name name rfl)).leads
        (by decide)).append (.commaList h.exprs)).close (by decide)) (by simp [Action.exprs]) rfl
  | callFunction name args =>
      exact .single ((((h.name name rfl).leads (by decide)).append (.commaList h.exprs)).close
        (by decide)) (by simp [Action.exprs]) rfl
  | _ => cases hplain

theorem Python.shownIn_lines (hplain : action.isPlain = true) {own : List CodeLine}
    (hown : Python.lines p action = .ok own) :
    ShownIn escapes (action.exprs.flatMap Expr.numerals) own := by
  cases action with
  | assign constant target value =>
      cases hown
      exact .single (((h.exprs target (.head _)).leads (by decide)).append
        (h.exprs value (.tail _ (.head _)))) (by simp [Action.exprs]) rfl
  | initializeArray target items =>
      cases hown
      exact .single ((((h.exprs target (.head _)).leads (by decide)).append
        (.commaList fun e he => h.exprs e (.tail _ he))).close (by decide))
        (by simp [Action.exprs]) rfl
  | fillArray target value =>
      cases hown
      have htarget := h.exprs target (.head _)
      have hshown : Shows escapes
          (p.text target ++ " = [" ++ p.text value ++ "] * len(" ++ p.text target ++ ")")
          (target.numerals ++ value.numerals ++ target.numerals) :=
        ((((htarget.leads (by decide)).append (h.exprs value (.tail _ (.head _)))).leads
          (by decide)).append htarget).close (by decide)
      refine ⟨_, .head _, rfl, hshown.mono ?_⟩
      rw [Action.exprs, List.flatMap_cons, List.flatMap_singleton]
      exact (List.sublist_append_left _ _).subperm
  | change direction target amount =>
      cases direction
      all_goals
        cases hown
        exact .single (((h.exprs target (.head _)).leads (by decide)).append
          (h.exprs amount (.tail _ (.head _)))) (by simp [Action.exprs]) rfl
  | output items =>
      cases hown
      exact .single (((by decide : Opens "print(").leads.append
        (.commaList h.exprs)).close (by decide)) (by simp [Action.exprs]) rfl
  | ifThen e | elseIf e | whileLoop e =>
      cases hown
      exact .single (((by decide : Opens _).leads.append (h.exprs e (.head _))).close (by decide))
        (by simp [Action.exprs]) rfl
  | endDoWhile e =>
      cases hown
      refine ⟨_, .head _, rfl, ?_⟩
      rw [Action.exprs, List.flatMap_singleton]
      exact ((by decide : Opens "if not ").leads.append (h.exprs e (.head _)).atLeast).close
        (by decide)
  | defineFunction name parameters =>
      cases hown
      exact .single (((((by decide : Opens "def ").leads.append (h.name name rfl)).leads
        (by decide)).append (.commaList h.exprs)).close (by decide)) (by simp [Action.exprs]) rfl
  | callFunction name args =>
      cases hown
      exact .single ((((h.name name rfl).leads (by decide)).append (.commaList h.exprs)).close
        (by decide)) (by simp [Action.exprs]) rfl
  | _ => cases hplain

omit h in
theorem Ruby.shows_outputItems {items : List Expr}
    (hitems : ∀ e ∈ items, Shows escapes (p.text e) e.numerals) :
    Shows escapes (outputItems p items) (items.flatMap Expr.numerals) := by
  unfold outputItems
  split
  · next item =>
    rw [List.flatMap_singleton]
    exact hitems item (.head _)
  · exact ((by decide : Opens "[").leads.append (.commaList hitems)).close (by decide)

theorem Ruby.shownIn_lines (hplain : action.isPlain = true) {own : List CodeLine}
    (hown : Ruby.lines p action = .ok own) :
    ShownIn escapes (action.exprs.flatMap Expr.numerals) own := by
  cases action with
  | assign constant target value =>
      cases hown
      exact .single (((h.exprs target (.head _)).leads (by decide)).append
        (h.exprs value (.tail _ (.head _)))) (by simp [Action.exprs]) rfl
  | initializeArray target items =>
      cases hown
      exact .single ((((h.exprs target (.head _)).leads (by decide)).append
        (.commaList fun e he => h.exprs e (.tail _ he))).close (by decide))
        (by simp [Action.exprs]) rfl
  | fillArray target value =>
      cases hown
      exact .single ((((h.exprs target (.head _)).leads (by decide)).append
        (h.exprs value (.tail _ (.head _)))).close (by decide)) (by simp [Action.exprs]) rfl
  | change direction target amount =>
      cases direction
      all_goals
        cases hown
        exact .single (((h.exprs target (.head _)).leads (by decide)).append
          (h.exprs amount (.tail _ (.head _)))) (by simp [Action.exprs]) rfl
  | output items =>
      cases hown
      exact .single ((by decide : Opens "puts ").leads.append (shows_outputItems h.exprs))
        (by simp [Action.exprs]) rfl
  | ifThen e | elseIf e | whileLoop e | endDoWhile e =>
      cases hown
      exact .single ((by decide : Opens _).leads.append (h.exprs e (.head _)))
        (by simp [Action.exprs]) rfl
  | defineFunction name parameters =>
      cases hown
      exact .single (((((by decide : Opens "def ").leads.append (h.name name rfl)).leads
        (by decide)).append (.commaList h.exprs)).close (by decide)) (by simp [Action.exprs]) rfl
  | callFunction name args =>
      cases hown
      exact .single ((((h.name name rfl).leads (by decide)).append (.commaList h.exprs)).close
        (by decide)) (by simp [Action.exprs]) rfl
  | _ => cases hplain

omit h in
theorem Vba.shows_outputItems {items : List Expr}
    (hitems : ∀ e ∈ items, Shows escapes (p.text e) e.numerals) :
    Shows escapes (outputItems p items) (items.flatMap Expr.numerals) := by
  unfold outputItems
  split
  · next item =>
    rw [List.flatMap_singleton]
    exact hitems item (.head _)
  · exact .intercalate (by decide) fun e he => Shows.atLeast (hitems e he)

theorem Vba.shownIn_lines (hplain : action.isPlain = true) {own : List CodeLine}
    (hown : Vba.lines p action = .ok own) :
    ShownIn escapes (action.exprs.flatMap Expr.numerals) own := by
  cases action with
  | assign constant target value =>
      cases hown
      have hconst : Opens (if constant then "Const " else "") := by cases constant <;> decide
      exact .single (((hconst.leads.append (h.exprs target (.head _))).leads (by decide)).append
        (h.exprs value (.tail _ (.head _)))) (by simp [Action.exprs]) rfl
  | initializeArray target items =>
      cases hown
      exact .single ((((h.exprs target (.head _)).leads (by decide)).append
        (.commaList fun e he => h.exprs e (.tail _ he))).close (by decide))
        (by simp [Action.exprs]) rfl
  | fillArray target value =>
      cases hown
      have hindex : Shows escapes fillIndex [] := .of_quoteless (by decide)
      have htarget := h.exprs target (.head _)
      have hvalue := h.exprs value (.tail _ (.head _))
      have hcopies : Leads escapes
          ("For " ++ fillIndex ++ " = LBound(" ++ p.text target ++ ") To UBound(" ++
            p.text target ++
            "): ") (target.numerals ++ target.numerals) :=
        ((((((by decide : Opens "For ").leads.append hindex).leads (by decide)).append
          htarget).leads (by decide)).append htarget).leads (by decide)
      have hfill : Shows escapes (fillLoop (p.text target) (p.text value))
          (target.numerals ++ target.numerals ++ target.numerals ++ [] ++ value.numerals ++ []) :=
        ((((((hcopies.append htarget).leads (by decide)).append hindex).leads (by decide)).append
          hvalue).leads (by decide)).append hindex
      refine ⟨_, .head _, rfl, hfill.mono ?_⟩
      rw [Action.exprs, List.flatMap_cons, List.flatMap_singleton, List.append_nil, List.append_nil,
        List.append_assoc (target.numerals ++ target.numerals)]
      exact (List.sublist_append_right _ _).subperm
  | change direction target amount =>
      have htarget := h.exprs target (.head _)
      have hamount := h.exprs amount (.tail _ (.head _))
      have hshown {sign : String} (hsign : Joins sign) : Shows escapes
          (p.text target ++ " = " ++ p.text target ++ sign ++
            (p.print amount).tighterThan .additive)
          (target.numerals ++ target.numerals ++ amount.numerals) :=
        (((htarget.leads (by decide)).append htarget).leads hsign).append hamount.tighterThan
      have hsub : ((Action.change direction target amount).exprs.flatMap Expr.numerals).Subperm
          (target.numerals ++ target.numerals ++ amount.numerals) := by
        rw [Action.exprs, List.flatMap_cons, List.flatMap_singleton, List.append_assoc]
        exact (List.sublist_append_right _ _).subperm
      cases direction
      all_goals
        cases hown
        exact ⟨_, .head _, rfl, (hshown (by decide)).mono hsub⟩
  | output items =>
      cases hown
      exact .single ((by decide : Opens "Debug.Print ").leads.append (shows_outputItems h.exprs))
        (by simp [Action.exprs]) rfl
  | ifThen e | elseIf e =>
      cases hown
      exact .single (((by decide : Opens _).leads.append (h.exprs e (.head _))).close (by decide))
        (by simp [Action.exprs]) rfl
  | whileLoop e | endDoWhile e =>
      cases hown
      exact .single ((by decide : Opens _).leads.append (h.exprs e (.head _)))
        (by simp [Action.exprs]) rfl
  | defineFunction name parameters =>
      cases hown
      exact .single (((((by decide : Opens "Sub ").leads.append (h.name name rfl)).leads
        (by decide)).append (.commaList h.exprs)).close (by decide)) (by simp [Action.exprs]) rfl
  | callFunction name args =>
      cases hown
      exact .single (((((by decide : Opens "Call ").leads.append (h.name name rfl)).leads
        (by decide)).append (.commaList h.exprs)).close (by decide)) (by simp [Action.exprs]) rfl
  | _ => cases hplain

end Lines

/-! ## Computed numbers -/

theorem decimal_of_digits {digits : List Char} (h : ∀ d ∈ digits, isAsciiDigit d = true) :
    decimal digits = ⟨digitsValue digits, 0⟩ := by
  rw [decimal, piecesAt_eq_singleton fun hmem => absurd (h _ hmem) (by decide)]

/-- A computed number is a numeral of its own. -/
theorem Target.decimals_toDigits (target : Target) (n : Nat) :
    target.decimals [Nat.toDigits 10 n] = [⟨n, 0⟩] := by
  have hzero : leadsWithZero (Nat.toDigits 10 n) = false := by
    have hplain := isPlainNumeral_toDigits n
    rw [isPlainNumeral, Bool.and_eq_true] at hplain
    generalize Nat.toDigits 10 n = digits at hplain
    unfold leadsWithZero
    split
    · cases hplain.2
    · rfl
  rw [decimals, List.filter_cons_of_pos (keepsZeros_of_not_leadsWithZero hzero), List.filter_nil,
    List.map_singleton, decimal_of_digits fun d => isAsciiDigit_of_mem_toDigits,
    digitsValue_toDigits]

/-- Its sign is no part of it. -/
theorem shows_toString {escapes : Bool} (n : Int) :
    Shows escapes (toString n) [Nat.toDigits 10 n.natAbs] := by
  have hdigits (m : Nat) : Shows escapes (toString m) [Nat.toDigits 10 m] := by
    rw [toString_eq_ofList]
    exact .digits Nat.toDigits_ne_nil fun d => isAsciiDigit_of_mem_toDigits
  cases n with
  | ofNat n => exact hdigits n
  | negSucc n => exact (by decide : Opens "-").leads.append (hdigits (n + 1))

/-- The numerals of a text that is read as an integer are its digits. -/
theorem numerals_of_readInt64? {target : Target} {text : String} {value : Int}
    (h : readInt64? text = some value) :
    ∃ digits, target.numerals text = [digits] ∧ (∀ d ∈ digits, isAsciiDigit d = true) ∧
      digitsValue digits = value.natAbs := by
  have unsigned {digits : List Char} {n : Nat} (hread : readDigits? digits = some n) :
      numeralsFrom target.escapes .between digits = [digits] ∧
        (∀ d ∈ digits, isAsciiDigit d = true) ∧ digitsValue digits = n := by
    obtain ⟨hall, hvalue⟩ := readDigits?_eq_some hread
    rw [List.all_eq_true] at hall
    refine ⟨?_, hall, hvalue⟩
    cases digits with
    | nil => cases hread
    | cons c digits =>
        have hnumerals := (@after_numeral target.escapes c digits hall []).2
        rwa [List.append_nil] at hnumerals
  obtain ⟨hread, -⟩ := Option.filter_eq_some_iff.mp h
  rw [Target.numerals]
  split at hread
  · next digits htext =>
    obtain ⟨n, hn, rfl⟩ := Option.map_eq_some_iff.mp hread
    rw [htext]
    exact ⟨digits, unsigned hn⟩
  · next digits htext =>
    obtain ⟨n, hn, rfl⟩ := Option.map_eq_some_iff.mp hread
    rw [htext]
    obtain ⟨hnumerals, hall, hvalue⟩ := unsigned hn
    exact ⟨digits, hnumerals, hall, hvalue.trans (Int.natAbs_neg (Int.ofNat n)).symm⟩
  · next digits _ _ =>
    obtain ⟨n, hn, rfl⟩ := Option.map_eq_some_iff.mp hread
    exact ⟨_, unsigned hn⟩

/-- Numerals that are among others stand for numbers among theirs. -/
theorem Target.decimals_subperm {target : Target} {numerals numerals' : List (List Char)}
    (h : numerals.Subperm numerals') :
    (target.decimals numerals).Subperm (target.decimals numerals') := by
  obtain ⟨seen, hperm, hsub⟩ := h
  exact ⟨_, (hperm.filter _).map _, (hsub.filter _).map _⟩

/-- A step with the other sign shows the same numbers, even if it is computed. -/
theorem exists_shows_negated {target : Target} {step : Printed} {numerals : List (List Char)}
    (hstep : Shows target.escapes step.text numerals) {text : String}
    (h : step.negated = .ok text) :
    ∃ numerals', Shows target.escapes text numerals' ∧
      (target.decimals numerals).Subperm (target.decimals numerals') := by
  rw [Printed.negated] at h
  split at h
  · next value hvalue =>
    obtain ⟨negative, hnegative, rfl⟩ := map_eq_ok_iff.mp h
    obtain ⟨digits, hnumerals, hdigits, habs⟩ := @numerals_of_readInt64? target _ _ hvalue
    refine ⟨_, shows_toString negative, ?_⟩
    have hsame : negative.natAbs = value.natAbs := by
      rw [negInt64] at hnegative
      split at hnegative
      · cases hnegative
        exact Int.natAbs_neg value
      · cases hnegative
    have hsub : numerals.Subperm [digits] := hnumerals ▸ hstep.subperm
    refine (Target.decimals_subperm hsub).trans ?_
    rw [Target.decimals_toDigits, hsame, ← habs, ← decimal_of_digits hdigits]
    exact ((List.filter_sublist (p := target.keepsZeros)).map decimal).subperm
  · cases h
    exact ⟨numerals, (by decide : Opens "-").leads.append hstep.tighterThan, List.Subperm.refl _⟩

/-! ## Counting loops -/

/-- The target reads the numbers in one of the lines of code. -/
def NumbersIn (target : Target) (numbers : List Decimal) (lines : List CodeLine) : Prop :=
  ∃ line ∈ lines, line.isCode = true ∧ numbers.Subperm (target.readNumbers line.text)

theorem NumbersIn.mono {target : Target} {numbers numbers' : List Decimal}
    {lines lines' : List CodeLine} (h : NumbersIn target numbers' lines)
    (hnumbers : numbers.Subperm numbers') {depth : Nat}
    (hlines : ∀ line ∈ lines, line.indent depth ∈ lines') : NumbersIn target numbers lines' := by
  obtain ⟨line, hline, hcode, hread⟩ := h
  exact ⟨line.indent depth, hlines line hline, hcode, hnumbers.trans hread⟩

theorem ShownIn.numbersIn {target : Target} {numerals : List (List Char)} {lines : List CodeLine}
    (h : ShownIn target.escapes numerals lines) : NumbersIn target
    (target.decimals numerals) lines := by
  obtain ⟨line, hline, hcode, hshows⟩ := h
  exact ⟨line, hline, hcode, Target.decimals_subperm_readNumbers hshows.subperm⟩

/-- The numerals are those of the end of a loop, or the one of the value behind it where the end of
a range is computed. -/
def LastPrinted (target : Target) (direction : Direction) (last : Expr)
    (numerals : List (List Char)) : Prop :=
  numerals = last.numerals ∨ target = .python ∧ ∃ value, last.literalInteger? = some value ∧
    numerals = [Nat.toDigits 10 (value + direction.signed 1).natAbs]

/-- The target counts by one by itself. -/
def Target.CountsByOne (target : Target) (direction : Direction) : Prop :=
  target = .javaScript ∨ target = .ruby ∨ direction = .up

/-- The numerals stand for the numbers of a step, or the step is one and left out. -/
def StepPrinted (target : Target) (p : ExprPrinter) (direction : Direction) (step : Expr)
    (numerals : List (List Char)) : Prop :=
  (target.decimals step.numerals).Subperm (target.decimals numerals) ∨
    p.text step = "1" ∧ target.CountsByOne direction

/-- The header of a counting loop shows its counter, where it starts, where it ends and its step. -/
def HeaderShows (target : Target) (p : ExprPrinter) (direction : Direction)
    (counter first last step : Expr) (text : String) : Prop :=
  ∃ last' step', Shows target.escapes text
      (counter.numerals ++ first.numerals ++ last' ++ step') ∧
    LastPrinted target direction last last' ∧ StepPrinted target p direction step step'

section Headers

variable {p : ExprPrinter} {direction : Direction} {counter first last step : Expr}

theorem JavaScript.headerShows
    (h : ∀ e ∈ [counter, first, last, step],
      Shows Target.javaScript.escapes (p.text e) e.numerals) :
    HeaderShows .javaScript p direction counter first last step
      (loopHeader p direction counter first last step) := by
  simp only [List.forall_mem_cons] at h
  obtain ⟨hcounter, hfirst, hlast, hstep, -⟩ := h
  have hheader {compare advance : String} {n : List (List Char)} (hcompare : Opens compare)
      (hadvance : Shows Target.javaScript.escapes advance n) : Shows Target.javaScript.escapes
        ("for (let " ++ p.text counter ++ " = " ++ p.text first ++ "; " ++ p.text counter ++ " " ++
          compare ++ " " ++ p.text last ++ "; " ++ advance ++ ") \x7b")
        (counter.numerals ++ first.numerals ++ last.numerals ++ n) := by
    have hfront := (((((by decide : Opens "for (let ").leads.append hcounter).leads
      (by decide : Joins " = ")).append hfirst).leads (by decide : Joins "; ")).append hcounter
    have htest := ((hfront.leads (by decide : Joins " ")).append_leads hcompare.leads).append_leads
      (by decide : Opens " ").leads
    have hshown := (((htest.append hlast).leads (by decide : Joins "; ")).append hadvance).close
      (by decide : Closes ") \x7b")
    refine hshown.mono (List.subperm_ext_iff.mpr fun numeral _ => ?_)
    simp only [List.count_append, List.count_nil]
    omega
  have hone {sign : String} (hsign : Closes sign) :
      Shows Target.javaScript.escapes (p.text counter ++ sign ++ sign) [] :=
    ((hcounter.close hsign).close hsign).mono List.nil_subperm
  have hadvance {sign : String} (hsign : Opens sign) : Shows Target.javaScript.escapes
      (p.text counter ++ " " ++ sign ++ "= " ++ p.text step) step.numerals := by
    have hshown := (((hcounter.leads (by decide : Joins " ")).append_leads
      hsign.leads).append_leads (by decide : Opens "= ").leads).append hstep
    exact hshown.mono (List.sublist_append_right _ _).subperm
  unfold loopHeader
  cases direction with
  | up =>
      dsimp only
      split
      · next h =>
        exact ⟨last.numerals, [], hheader (by decide) (hone (by decide)), .inl rfl,
          .inr ⟨eq_of_beq h, .inl rfl⟩⟩
      · exact ⟨last.numerals, step.numerals, hheader (by decide) (hadvance (by decide)), .inl rfl,
          .inl (List.Subperm.refl _)⟩
  | down =>
      dsimp only
      split
      · next h =>
        exact ⟨last.numerals, [], hheader (by decide) (hone (by decide)), .inl rfl,
          .inr ⟨eq_of_beq h, .inl rfl⟩⟩
      · exact ⟨last.numerals, step.numerals, hheader (by decide) (hadvance (by decide)), .inl rfl,
          .inl (List.Subperm.refl _)⟩

theorem Vba.headerShows
    (h : ∀ e ∈ [counter, first, last, step], Shows Target.vba.escapes (p.text e) e.numerals)
    {text : String} (htext : loopHeader p direction counter first last step = .ok text) :
    HeaderShows .vba p direction counter first last step text := by
  simp only [List.forall_mem_cons] at h
  obtain ⟨hcounter, hfirst, hlast, hstep, -⟩ := h
  have hheader : Shows Target.vba.escapes
      ("For " ++ p.text counter ++ " = " ++ p.text first ++ " To " ++ p.text last)
      ([] ++ counter.numerals ++ first.numerals ++ last.numerals) :=
    (((((by decide : Opens "For ").leads.append hcounter).leads (by decide)).append hfirst).leads
      (by decide)).append hlast
  rw [List.nil_append] at hheader
  cases direction with
  | up =>
      rw [loopHeader] at htext
      split at htext
      · next hone =>
        cases htext
        refine ⟨last.numerals, [], ?_, .inl rfl, .inr ⟨eq_of_beq hone, .inr (.inr rfl)⟩⟩
        rwa [List.append_nil]
      · cases htext
        exact ⟨last.numerals, step.numerals, (hheader.leads (by decide)).append hstep, .inl rfl,
          .inl (List.Subperm.refl _)⟩
  | down =>
      obtain ⟨negative, hnegative, ⟨⟩⟩ := bind_eq_ok_iff.mp htext
      obtain ⟨step', hstep', hsub⟩ := exists_shows_negated hstep hnegative
      exact ⟨last.numerals, step', (hheader.leads (by decide)).append hstep', .inl rfl, .inl hsub⟩

theorem Ruby.headerShows
    (h : ∀ e ∈ [counter, first, last, step], Shows Target.ruby.escapes (p.text e) e.numerals)
    {call : String} (hcall : loopCall p direction first last step = .ok call) :
    HeaderShows .ruby p direction counter first last step
      (call ++ " do |" ++ p.text counter ++ "|") := by
  simp only [List.forall_mem_cons] at h
  obtain ⟨hcounter, hfirst, hlast, hstep, -⟩ := h
  have hheader {n : List (List Char)}
      (hshown : Shows Target.ruby.escapes call (first.numerals ++ last.numerals ++ n)) :
      Shows Target.ruby.escapes (call ++ " do |" ++ p.text counter ++ "|")
        (counter.numerals ++ first.numerals ++ last.numerals ++ n) := by
    have hblock := ((hshown.leads (by decide : Joins " do |")).append hcounter).close
      (by decide : Closes "|")
    refine hblock.mono (List.subperm_ext_iff.mpr fun numeral _ => ?_)
    simp only [List.count_append]
    omega
  unfold loopCall at hcall
  dsimp only at hcall
  cases direction with
  | up =>
      cases hone : (p.print step).isOne with
      | true =>
          rw [hone] at hcall
          cases hcall
          refine ⟨last.numerals, [], hheader ?_, .inl rfl,
            .inr ⟨eq_of_beq hone, .inr (.inl rfl)⟩⟩
          rw [List.append_nil]
          exact ((((by decide : Opens "(").leads.append hfirst.atLeast).leads (by decide)).append
            hlast).close (by decide)
      | false =>
          rw [hone] at hcall
          cases hcall
          exact ⟨last.numerals, step.numerals, hheader
            (((((hfirst.atLeast.leads (by decide)).append hlast).leads (by decide)).append
              hstep).close (by decide)), .inl rfl, .inl (List.Subperm.refl _)⟩
  | down =>
      cases hone : (p.print step).isOne with
      | true =>
          rw [hone] at hcall
          cases hcall
          refine ⟨last.numerals, [], hheader ?_, .inl rfl,
            .inr ⟨eq_of_beq hone, .inr (.inl rfl)⟩⟩
          rw [List.append_nil]
          exact ((hfirst.atLeast.leads (by decide)).append hlast).close (by decide)
      | false =>
          rw [hone] at hcall
          obtain ⟨negative, hnegative, ⟨⟩⟩ := bind_eq_ok_iff.mp hcall
          obtain ⟨step', hstep', hsub⟩ := exists_shows_negated hstep hnegative
          exact ⟨last.numerals, step', hheader
            (((((hfirst.atLeast.leads (by decide)).append hlast).leads (by decide)).append
              hstep').close (by decide)), .inl rfl, .inl hsub⟩

theorem addInt64_eq_ok {a b c : Int} (h : addInt64 a b = .ok c) : c = a + b := by
  rw [addInt64] at h
  split at h
  · cases h
    rfl
  · cases h

/-- The end of a range is computed from an integer literal, and else printed as a sum. -/
theorem Python.exists_shows_rangeStop
    (hlast : Shows Target.python.escapes (p.text last) last.numerals) {stop : String}
    (h : rangeStop p direction last = .ok stop) :
    ∃ last', Shows Target.python.escapes stop last' ∧
      LastPrinted .python direction last last' := by
  unfold rangeStop at h
  split at h
  · next value hvalue =>
    obtain ⟨next, hnext, rfl⟩ := map_eq_ok_iff.mp h
    refine ⟨_, shows_toString next, .inr ⟨rfl, value, hvalue, ?_⟩⟩
    rw [addInt64_eq_ok hnext]
    cases direction <;> rfl
  · cases h
    refine ⟨last.numerals, ?_, .inl rfl⟩
    cases direction with
    | up => exact ((hlast.atLeast.close (by decide)).close (by decide)).close (by decide)
    | down => exact ((hlast.atLeast.close (by decide)).close (by decide)).close (by decide)

theorem Python.headerShows
    (h : ∀ e ∈ [counter, first, last, step], Shows Target.python.escapes (p.text e) e.numerals)
    {text : String} (htext : rangeHeader p direction counter first last step = .ok text) :
    HeaderShows .python p direction counter first last step text := by
  simp only [List.forall_mem_cons] at h
  obtain ⟨hcounter, hfirst, hlast, hstep, -⟩ := h
  obtain ⟨stop, hstop, htext⟩ := bind_eq_ok_iff.mp htext
  obtain ⟨last', hlast', hprinted⟩ := exists_shows_rangeStop hlast hstop
  have hbounds : Shows Target.python.escapes (p.text first ++ ", " ++ stop)
      (first.numerals ++ last') :=
    (hfirst.leads (by decide)).append hlast'
  have hheader {range : String} {n : List (List Char)}
      (hrange : Shows Target.python.escapes range (first.numerals ++ last' ++ n)) :
      Shows Target.python.escapes ("for " ++ p.text counter ++ " in range(" ++ range ++ "):")
        (counter.numerals ++ first.numerals ++ last' ++ n) := by
    have hshown := ((((by decide : Opens "for ").leads.append hcounter).leads
      (by decide : Joins " in range(")).append hrange).close (by decide : Closes "):")
    refine hshown.mono (List.Perm.subperm ?_)
    simp
  cases direction with
  | up =>
      dsimp only at htext
      split at htext
      · next hone =>
        cases htext
        refine ⟨last', [], hheader ?_, hprinted, .inr ⟨eq_of_beq hone, .inr (.inr rfl)⟩⟩
        rwa [List.append_nil]
      · cases htext
        exact ⟨last', step.numerals, hheader ((hbounds.leads (by decide)).append hstep), hprinted,
          .inl (List.Subperm.refl _)⟩
  | down =>
      obtain ⟨negative, hnegative, ⟨⟩⟩ := bind_eq_ok_iff.mp htext
      obtain ⟨step', hstep', hsub⟩ := exists_shows_negated hstep hnegative
      exact ⟨last', step', hheader ((hbounds.leads (by decide)).append hstep'), hprinted, .inl hsub⟩

end Headers

/-! ## Loops and their lines -/

/-- Where a target reads the numbers of a counting loop: among its lines, but for the end of a range
that is computed, and for a step that is left out. -/
structure Target.ShowsLoop (target : Target) (p : ExprPrinter) (direction : Direction)
    (counter first last step : Expr) (lines : List CodeLine) : Prop where
  counts : NumbersIn target (target.decimals counter.numerals) lines
  starts : NumbersIn target (target.decimals first.numerals) lines
  ends : NumbersIn target (target.decimals last.numerals) lines ∨
    target = .python ∧ ∃ value, last.literalInteger? = some value ∧
      NumbersIn target [⟨(value + direction.signed 1).natAbs, 0⟩] lines
  steps : NumbersIn target (target.decimals step.numerals) lines ∨
    p.text step = "1" ∧ target.CountsByOne direction

section Loops

variable {target : Target} {p : ExprPrinter} {direction : Direction}
  {counter first last step : Expr} {lines : List CodeLine} {depth : Nat}

theorem HeaderShows.showsLoop {text : String}
    (h : HeaderShows target p direction counter first last step text)
    (hmem : (⟨text, depth, false⟩ : CodeLine) ∈ lines) :
    target.ShowsLoop p direction counter first last step lines := by
  obtain ⟨last', step', hshows, hlast, hstep⟩ := h
  have shown {numerals : List (List Char)}
      (hsub : numerals.Subperm (counter.numerals ++ first.numerals ++ last' ++ step')) :
      NumbersIn target (target.decimals numerals) lines :=
    ⟨_, hmem, rfl, Target.decimals_subperm_readNumbers (hsub.trans hshows.subperm)⟩
  have hbounds : (counter.numerals ++ first.numerals).Sublist
      (counter.numerals ++ first.numerals ++ last' ++ step') := by
    rw [List.append_assoc]
    exact List.sublist_append_left _ _
  have hlast' : NumbersIn target (target.decimals last') lines :=
    shown ((List.sublist_append_right _ _).trans (List.sublist_append_left _ _)).subperm
  have hstep' : NumbersIn target (target.decimals step') lines :=
    shown (List.sublist_append_right _ _).subperm
  constructor
  · exact shown ((List.sublist_append_left _ _).trans hbounds).subperm
  · exact shown ((List.sublist_append_right _ _).trans hbounds).subperm
  · rcases hlast with rfl | ⟨hpython, value, hvalue, rfl⟩
    · exact .inl hlast'
    · rw [Target.decimals_toDigits] at hlast'
      exact .inr ⟨hpython, value, hvalue, hlast'⟩
  · refine hstep.imp_left fun hsub => ?_
    obtain ⟨line, hline, hcode, hread⟩ := hstep'
    exact ⟨line, hline, hcode, hsub.trans hread⟩

/-- A loop over fractions shows all its numbers, the step in the line that advances it. -/
theorem Python.showsLoop_fractions {depth' : Nat}
    (h : ∀ e ∈ [counter, first, last, step], Shows Target.python.escapes (p.text e) e.numerals)
    (hheader : ∀ line ∈ fractionHeader p direction counter first last, line.indent depth ∈ lines)
    (hfooter : ∀ line ∈ footer p (.advance direction counter step), line.indent depth' ∈ lines) :
    Target.python.ShowsLoop p direction counter first last step lines := by
  simp only [List.forall_mem_cons] at h
  obtain ⟨hcounter, hfirst, hlast, hstep, -⟩ := h
  have shown {own : List CodeLine} {depth : Nat} {numerals : List (List Char)}
      (hown : ∀ line ∈ own, line.indent depth ∈ lines)
      (hshown : ShownIn Target.python.escapes numerals own) :
      NumbersIn .python (Target.python.decimals numerals) lines :=
    hshown.numbersIn.mono (List.Subperm.refl _) hown
  have hstart : Shows Target.python.escapes (p.text counter ++ " = " ++ p.text first)
      (counter.numerals ++ first.numerals) :=
    (hcounter.leads (by decide)).append hfirst
  have hcondition {compare : String} (hcompare : Opens compare) : Shows Target.python.escapes
      ("while " ++ p.text counter ++ " " ++ compare ++ " " ++
        (p.print last).tighterThan .comparison ++ ":") last.numerals := by
    have hfront := ((((by decide : Opens "while ").leads.append hcounter).leads
      (by decide : Joins " ")).append_leads hcompare.leads).append_leads
        (by decide : Opens " ").leads
    refine ((hfront.append hlast.tighterThan).close (by decide)).mono ?_
    exact (List.sublist_append_right _ _).subperm
  have hadvance {sign : String} (hsign : Joins sign) : Shows Target.python.escapes
      (p.text counter ++ sign ++ p.text step) step.numerals :=
    ((hcounter.leads hsign).append hstep).mono (List.sublist_append_right _ _).subperm
  constructor
  · exact shown hheader ⟨_, .head _, rfl, hstart.mono (List.sublist_append_left _ _).subperm⟩
  · exact shown hheader ⟨_, .head _, rfl, hstart.mono (List.sublist_append_right _ _).subperm⟩
  · left
    cases direction with
    | up => exact shown hheader ⟨_, .tail _ (.head _), rfl, hcondition (by decide)⟩
    | down => exact shown hheader ⟨_, .tail _ (.head _), rfl, hcondition (by decide)⟩
  · left
    cases direction with
    | up => exact shown hfooter ⟨_, .head _, rfl, hadvance (by decide)⟩
    | down => exact shown hfooter ⟨_, .head _, rfl, hadvance (by decide)⟩

/-- Every target reads the numbers of a counting loop from the two ends of the loop. -/
theorem Target.showsLoop {spellings? : Option Spellings} {header footer : List CodeLine}
    {depth' : Nat} (h : ∀ e ∈ [counter, first, last, step],
      Shows target.escapes ((target.printer spellings?).text e) e.numerals)
    (hheader : target.lines spellings? (.count direction counter first last step) = .ok header)
    (hfooter : target.lines spellings?
      (.endCount (target.footerFor direction counter first last step)) = .ok footer)
    (hlines : ∀ line ∈ header, line.indent depth ∈ lines)
    (hlines' : ∀ line ∈ footer, line.indent depth' ∈ lines) :
    target.ShowsLoop (target.printer spellings?) direction counter first last step lines := by
  cases target with
  | javaScript =>
      cases hheader
      exact (JavaScript.headerShows h).showsLoop (hlines _ (.head _))
  | ruby =>
      obtain ⟨call, hcall, ⟨⟩⟩ := bind_eq_ok_iff.mp hheader
      exact (Ruby.headerShows h hcall).showsLoop (hlines _ (.head _))
  | vba =>
      obtain ⟨text, htext, ⟨⟩⟩ := bind_eq_ok_iff.mp hheader
      exact (Vba.headerShows h htext).showsLoop (hlines _ (.head _))
  | python =>
      rw [Target.lines, Python.lines] at hheader
      rw [Target.footerFor] at hfooter
      split at hheader
      · next hfractions =>
        rw [if_pos hfractions] at hfooter
        cases hheader
        cases hfooter
        exact Python.showsLoop_fractions h hlines hlines'
      · obtain ⟨text, htext, ⟨⟩⟩ := bind_eq_ok_iff.mp hheader
        exact (Python.headerShows h htext).showsLoop (hlines _ (.head _))

end Loops

/-- Every other statement shows the numerals of all its expressions in one line. -/
theorem Target.shownIn_lines {target : Target} {spellings? : Option Spellings} {action : Action}
    (h : action.Printable (target.printer spellings?) target.escapes)
    (hplain : action.isPlain = true) {own : List CodeLine}
    (hown : target.lines spellings? action = .ok own) :
    ShownIn target.escapes (action.exprs.flatMap Expr.numerals) own := by
  cases target with
  | javaScript =>
      cases hown
      exact JavaScript.shownIn_lines h hplain
  | python => exact Python.shownIn_lines h hplain hown
  | vba => exact Vba.shownIn_lines h hplain hown
  | ruby => exact Ruby.shownIn_lines h hplain hown

end BlockCode
