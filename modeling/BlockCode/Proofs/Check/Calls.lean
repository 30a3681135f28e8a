/- # Calls against definitions

A call of a user-defined function stands on a line of its own or inside an expression, and both
are held against the first definition of the name. The definition and the call on a line are seen
as text: the name as it was typed, without white space, and the lists by their commas. A call
inside an expression is seen as it was read. Where the texts are typed plainly the two views agree,
and the faults of calls say what is read: which function is not defined, and which call does not
have as many arguments as its definition has parameters.
-/

import BlockCode.Proofs.Check.Slots
import BlockCode.Proofs.Expr.Commas
import BlockCode.Proofs.Expr.Equality

namespace BlockCode

/-! ## Names as text and names as read -/

/-- Trimming the text as it was typed leaves what is left when it is read: rewriting changes
nothing but white space, and all white space is such as the lexer skips. -/
def PlainlyTyped (text : String) : Prop :=
  ∃ rewritten, normalizeText text = .ok rewritten ∧ trim rewritten = trim text ∧
    ∀ c ∈ rewritten.toList, isBlank c = true → isTokenGap c = true

/-- The slot reads as the name. -/
def ReadsAs (slot word : String) : Prop :=
  ∃ span, prepare slot = .ok (.name span word)

instance (slot word : String) : Decidable (ReadsAs slot word) :=
  match hread : prepare slot with
  | .ok (.name span name) =>
    decidable_of_iff (name = word) (by simp [ReadsAs, hread])
  | .ok (.number ..) | .ok (.string ..) | .ok (.bool ..) | .ok (.index ..) | .ok (.call ..)
  | .ok (.builtin ..) | .ok (.unary ..) | .ok (.binary ..) | .ok (.group ..) | .error _ =>
    isFalse (by simp [ReadsAs, hread])

/-- The word may stand for a name in a slot: it is one to the lexer, and no segment of it is
reserved. -/
structure Nameable (word : String) : Prop where
  lexeme : IsLexeme .name word
  free : reservedSegment? word = none

/-- Text without parentheses adds no bracket problem. -/
theorem BracketScan.errors_scanFrom {text : List Char} (hopening : '(' ∉ text)
    (hclosing : ')' ∉ text) (scan : BracketScan) (place : Quotation) :
    (scan.scanFrom place text).errors = scan.errors := by
  induction text generalizing scan place with
  | nil => rfl
  | cons c text ih =>
      rw [List.mem_cons, not_or] at hopening hclosing
      have errors_see : (scan.see c).errors = scan.errors := by
        rw [see, if_neg (by simpa using Ne.symm hopening.1),
          if_neg (by simpa using Ne.symm hclosing.1)]
        rfl
      rw [scanFrom.eq_def]
      dsimp only
      rw [ih hopening.2 hclosing.2]
      cases place with
      | outside =>
          dsimp only
          split
          · rfl
          · exact errors_see
      | inside =>
          dsimp only
          split
          · exact errors_see
          · rfl
      | escaped => rfl

/-- A name that was read in a slot may stand for a name. -/
theorem nameable_of_checkNames {e part : Expr} {word : String} (hnames : checkNames e = .ok ())
    (hpart : part ∈ e.parts) (hlegible : part.OwnLegible) (hname : part.ownName? = some word) :
    Nameable word := by
  refine ⟨?_, ?_⟩
  · cases part with
    | name =>
        cases hname
        exact hlegible
    | call =>
        cases hname
        exact hlegible.1
    | _ => cases hname
  · exact checkNames_eq_ok_iff.mp hnames part hpart word hname

/-- What was read in a slot is legible, and its names are free. -/
theorem Statement.legible_of_readSlot {s : Statement} {slot : Nat} {exprs : List Expr}
    (h : s.readSlot slot = .ok exprs) {e : Expr} (he : e ∈ exprs) :
    (∀ part ∈ e.parts, part.OwnLegible) ∧ checkNames e = .ok () := by
  rw [Statement.readSlot] at h
  split at h
  · obtain ⟨text, -, hparse, hnames⟩ := prepareList_eq_ok_iff.mp h
    obtain ⟨tokens, hlex, ⟨-, rfl⟩ | ⟨-, hderives⟩⟩ := exists_tokens_of_parseExprList hparse
    · cases he
    · have hlegible := hderives.eachPart Expr.givenByRules_ownLegible
        fun token htoken hkind => isLexeme_of_mem_lexFrom hlex htoken hkind
      exact ⟨hlegible e he, forM_eq_ok_iff.mp hnames e he⟩
  · obtain ⟨e', hread, rfl⟩ := map_eq_ok_iff.mp h
    obtain rfl := List.mem_singleton.mp he
    obtain ⟨text, -, hparse, hnames⟩ := prepare_eq_ok_iff.mp hread
    exact ⟨Expr.ownLegible_of_parseExpr hparse, hnames⟩

/-- The names in a slot that reads may stand for names. -/
theorem Statement.nameable_of_readSlot {s : Statement} {slot : Nat} {exprs : List Expr}
    {word : String} (h : s.readSlot slot = .ok exprs) {e part : Expr} (he : e ∈ exprs)
    (hpart : part ∈ e.parts) (hname : part.ownName? = some word) : Nameable word := by
  obtain ⟨hlegible, hnames⟩ := legible_of_readSlot h he
  exact nameable_of_checkNames hnames hpart (hlegible part hpart) hname

theorem checkNames_name_eq_ok {word : String} (h : reservedSegment? word = none) (span : Span) :
    checkNames (.name span word) = .ok () := by
  rw [checkNames_eq_ok_iff, Expr.parts, List.forall_mem_singleton]
  rintro _ ⟨⟩
  exact h

theorem checkNames_index_iff {span : Span} {base position : Expr} :
    checkNames (.index span base position) = .ok () ↔
      checkNames base = .ok () ∧ checkNames position = .ok () := by
  rw [checkNames_eq_ok_iff, checkNames_eq_ok_iff, checkNames_eq_ok_iff, Expr.parts,
    List.forall_mem_cons, List.forall_mem_append, and_iff_right]
  rintro word ⟨⟩

namespace PlainlyTyped

variable {slot word : String}

/-- Whether a text that rewriting leaves as it is is typed plainly can be computed. -/
theorem of_all {text : String} (hnormal : normalizeText text = .ok text)
    (hgaps : text.toList.all (fun c => !isBlank c || isTokenGap c) = true) : PlainlyTyped text := by
  refine ⟨text, hnormal, rfl, fun c hc hblank => ?_⟩
  simpa [hblank] using List.all_eq_true.mp hgaps c hc

/-- A plainly typed text that reads as a name is that name once trimmed. -/
theorem trim_eq (h : PlainlyTyped slot) (hread : ReadsAs slot word) : trim slot = word := by
  obtain ⟨rewritten, hnormal, htrim, -⟩ := h
  obtain ⟨span, hprepare⟩ := hread
  obtain ⟨text, hchecked, hparse, -⟩ := prepare_eq_ok_iff.mp hprepare
  obtain ⟨hnormal', -⟩ := checkedText_eq_ok_iff.mp hchecked
  obtain rfl : rewritten = text := Except.ok.inj (hnormal.symm.trans hnormal')
  have hlexeme : IsLexeme .name word :=
    Expr.ownLegible_of_parseExpr hparse _ (Expr.mem_parts_self _)
  obtain ⟨before, behind, htext, hbefore, hbehind⟩ := exists_eq_of_parseExpr_name hparse
  rw [← htrim, trim, htext, trimChars_enclosed
    (fun c hc => isBlank_of_isTokenGap (hbefore c hc)) hlexeme.isBlank_of_mem
    (fun c hc => isBlank_of_isTokenGap (hbehind c hc)), String.ofList_toList]

/-- A plainly typed text that is a name once trimmed reads as that name. -/
theorem readsAs (h : PlainlyTyped slot) (hword : Nameable word) (htrim : trim slot = word) :
    ReadsAs slot word := by
  obtain ⟨rewritten, hnormal, hsame, hgaps⟩ := h
  obtain ⟨before, behind, htext, hbefore, hbehind⟩ := exists_eq_append_trimChars rewritten.toList
  have hmiddle : trimChars rewritten.toList = word.toList := by
    rw [← htrim, ← hsame, trim, String.toList_ofList]
  rw [hmiddle] at htext
  have hspace {c : Char} (hc : c ∈ before ∨ c ∈ behind) : isTokenGap c = true := by
    refine hgaps c ?_ (hc.elim (hbefore c) (hbehind c))
    rw [htext, List.mem_append, List.mem_append]
    exact hc.elim (fun hc => .inl (.inl hc)) .inr
  obtain ⟨span, hparse⟩ := exists_parseExpr_eq_name hword.lexeme htext
    (fun c hc => hspace (.inl hc)) fun c hc => hspace (.inr hc)
  have notMem {p : Char} (hgap : isTokenGap p = false) (hpart : isWordChar p = false) :
      p ∉ rewritten.toList := by
    rw [htext, List.mem_append, List.mem_append]
    rintro ((hp | hp) | hp)
    · exact absurd (hspace (.inl hp)) (Bool.eq_false_iff.mp hgap)
    · exact absurd (hword.lexeme.isWordChar_of_mem p hp) (Bool.eq_false_iff.mp hpart)
    · exact absurd (hspace (.inr hp)) (Bool.eq_false_iff.mp hgap)
  have hbrackets : bracketErrors [rewritten.toList] = [] :=
    BracketScan.errors_scanFrom (notMem (by decide) (by decide)) (notMem (by decide) (by decide))
      {} .outside
  exact ⟨span, prepare_eq_ok_iff.mpr ⟨rewritten, checkedText_eq_ok_iff.mpr ⟨hnormal, hbrackets⟩,
    hparse, checkNames_name_eq_ok hword.free span⟩⟩

end PlainlyTyped

/-! ## Functions as they are looked up -/

namespace Statement

variable {s : Statement} {word : String}

/-- The statement defines a function whose name reads as the word. -/
def Defines (s : Statement) (word : String) : Prop :=
  s.kind = .defineFunction ∧ ReadsAs (s.slot 0) word

instance : Decidable (s.Defines word) :=
  inferInstanceAs (Decidable (_ ∧ _))

/-- Where the statement defines the word, as text or as it reads, the name is typed plainly. -/
def DefinesPlainly (s : Statement) (word : String) : Prop :=
  s.kind = .defineFunction → trim (s.slot 0) = word ∨ s.Defines word → PlainlyTyped (s.slot 0)

theorem definition?_of_defines (hplain : s.DefinesPlainly word) (h : s.Defines word) :
    s.definition? = some ⟨word, listLength (s.slot 1)⟩ := by
  have ⟨hkind, hread⟩ := h
  rw [definition?, if_pos hkind, (hplain hkind (.inr h)).trim_eq hread]

theorem defines_of_definition? (hword : Nameable word) (hplain : s.DefinesPlainly word)
    {f : FunctionSignature} (h : s.definition? = some f) (hname : f.name = word) :
    s.Defines word := by
  rw [definition?] at h
  split at h
  · rename_i hkind
    cases h
    exact ⟨hkind, (hplain hkind (.inl hname)).readsAs hword hname⟩
  · cases h

/-- No function of the name is found exactly where none is defined. -/
theorem findFunction?_eq_none_iff (hword : Nameable word) {statements : List Statement}
    (hplain : ∀ s ∈ statements, s.DefinesPlainly word) :
    findFunction? (statements.filterMap definition?) word = none ↔
      ∀ s ∈ statements, ¬ s.Defines word := by
  rw [findFunction?, List.find?_eq_none]
  constructor
  · intro h s hs hdefines
    have hf := definition?_of_defines (hplain s hs) hdefines
    exact h _ (List.mem_filterMap.mpr ⟨s, hs, hf⟩) (beq_self_eq_true word)
  · intro h f hf hname
    obtain ⟨s, hs, hdefinition⟩ := List.mem_filterMap.mp hf
    exact h s hs (defines_of_definition? hword (hplain s hs) hdefinition (beq_iff_eq.mp hname))

/-- The function that is found is the first that is defined. -/
theorem findFunction?_eq_some (hword : Nameable word) {before behind : List Statement}
    {first : Statement} (hplain : ∀ s ∈ before ++ first :: behind, s.DefinesPlainly word)
    (hbefore : ∀ s ∈ before, ¬ s.Defines word) (hfirst : first.Defines word) :
    findFunction? ((before ++ first :: behind).filterMap definition?) word =
      some ⟨word, listLength (first.slot 1)⟩ := by
  rw [List.forall_mem_append, List.forall_mem_cons] at hplain
  have hnone := (findFunction?_eq_none_iff hword hplain.1).mpr hbefore
  rw [findFunction?] at hnone ⊢
  rw [List.filterMap_append, List.find?_append, hnone, Option.none_or,
    List.filterMap_cons_some (definition?_of_defines hplain.2.1 hfirst), List.find?_cons]
  dsimp only
  rw [beq_self_eq_true]

end Statement

/-! ## Calls and their faults -/

/-- Whether the fault is that of a call. -/
def Fault.isCallFault : Fault → Bool
  | .undefinedFunction _ | .argumentCount .. => true
  | _ => false

/-- Where a call may stand: on a line of its own or inside an expression. -/
inductive CallForm where
  | statement
  | expression
  deriving DecidableEq, Repr

namespace Line

/-- The line calls the function of the name with so many arguments, as far as its slots read. -/
def Calls (line : Line) : CallForm → String → Nat → Prop
  | .statement, word, count =>
    line.kind = .callFunction ∧ ReadsAs (line.statement.slot 0) word ∧
      ∃ args, prepareList (line.statement.slot 1) = .ok args ∧ args.length = count
  | .expression, word, count =>
    ∃ slot ∈ line.statement.expressionSlots, ∃ exprs, line.statement.readSlot slot = .ok exprs ∧
      ∃ e ∈ exprs, ∃ span args, .call span word args true ∈ e.parts ∧ args.length = count

/-- The call is seen as it reads: on a line of its own its name is typed plainly and no argument is
written with commas, and inside an expression the brackets of the line are in order. -/
def CallsPlainly (line : Line) : CallForm → Prop
  | .statement =>
    PlainlyTyped (line.statement.slot 0) ∧
      ∀ args, prepareList (line.statement.slot 1) = .ok args → ∀ e ∈ args, e.commas = 0
  | .expression => bracketErrors (line.statement.slots.map String.toList) = []

variable {functions : List FunctionSignature} {line : Line} {form : CallForm} {word : String}
  {count : Nat}

theorem mem_callFaults_undefinedFunction {name : String} :
    .undefinedFunction word ∈ callFaults functions name count ↔
      name = word ∧ findFunction? functions word = none := by
  rw [callFaults]
  cases hfind : findFunction? functions name with
  | none =>
      dsimp only
      rw [List.mem_singleton, Fault.undefinedFunction.injEq]
      refine ⟨?_, fun h => h.1.symm⟩
      rintro rfl
      exact ⟨rfl, hfind⟩
  | some f =>
      refine iff_of_false ?_ ?_
      · dsimp only
        split <;> simp
      · rintro ⟨rfl, hnone⟩
        rw [hfind] at hnone
        cases hnone

theorem mem_callFaults_argumentCount {name : String} {expected found : Nat} :
    .argumentCount word expected found ∈ callFaults functions name count ↔
      name = word ∧ count = found ∧ ∃ f, findFunction? functions word = some f ∧
        f.parameters = expected ∧ expected ≠ found := by
  rw [callFaults]
  cases hfind : findFunction? functions name with
  | none =>
      refine iff_of_false (by simp) ?_
      rintro ⟨rfl, _, f, hsome, _⟩
      rw [hfind] at hsome
      cases hsome
  | some f =>
      dsimp only
      split
      · rename_i heq
        refine iff_of_false (by simp) ?_
        rintro ⟨rfl, rfl, f', hsome, rfl, hne⟩
        rw [hfind] at hsome
        cases hsome
        exact hne heq
      · rename_i hne
        rw [List.mem_singleton, Fault.argumentCount.injEq]
        constructor
        · rintro ⟨rfl, rfl, rfl⟩
          exact ⟨rfl, rfl, f, hfind, rfl, hne⟩
        · rintro ⟨rfl, rfl, f', hsome, rfl, _⟩
          rw [hfind] at hsome
          cases hsome
          exact ⟨rfl, rfl, rfl⟩

/-- Each fault that is one of a call is one that some call has. -/
def FromCalls (functions : List FunctionSignature) (faults : List Fault) : Prop :=
  ∀ fault ∈ faults, fault.isCallFault = true →
    ∃ name found, fault ∈ callFaults functions name found

theorem fromCalls_append {faults faults' : List Fault} :
    FromCalls functions (faults ++ faults') ↔
      FromCalls functions faults ∧ FromCalls functions faults' :=
  List.forall_mem_append

theorem fromCalls_flatMap {α : Type} {items : List α} {faults : α → List Fault}
    (h : ∀ item ∈ items, FromCalls functions (faults item)) :
    FromCalls functions (items.flatMap faults) := by
  intro fault hfault
  obtain ⟨item, hitem, hmem⟩ := List.mem_flatMap.mp hfault
  exact h item hitem fault hmem

/-- Faults of another sort are none of calls. -/
theorem fromCalls_of_forall {faults : List Fault}
    (h : ∀ fault ∈ faults, fault.isCallFault = false) : FromCalls functions faults := by
  intro fault hfault hcall
  rw [h fault hfault] at hcall
  cases hcall

theorem fromCalls_callFaults (name : String) (found : Nat) :
    FromCalls functions (callFaults functions name found) :=
  fun _ hfault _ => ⟨name, found, hfault⟩

theorem fromCalls_structureFaults : FromCalls functions (line.structureFaults functions) := by
  rw [structureFaults, fromCalls_append, fromCalls_append, fromCalls_append, fromCalls_append]
  refine ⟨⟨⟨⟨?_, ?_⟩, ?_⟩, ?_⟩, ?_⟩
  · apply fromCalls_of_forall
    rw [successorFaults]
    split
    · split <;> simp [Fault.isCallFault]
    · simp
  · apply fromCalls_of_forall
    rw [predecessorFaults]
    split
    · split <;> simp [Fault.isCallFault]
    · simp
  · apply fromCalls_of_forall
    rw [bodyFaults]
    split <;> simp [Fault.isCallFault]
  · apply fromCalls_of_forall
    rw [slotCountFaults]
    split
    · split <;> simp [Fault.isCallFault]
    · split <;> simp [Fault.isCallFault]
  · rw [kindFaults]
    split
    · apply fromCalls_of_forall
      rw [breakFaults]
      split <;> simp [Fault.isCallFault]
    · apply fromCalls_of_forall
      rw [definitionFaults, List.forall_mem_append]
      refine ⟨?_, ?_⟩
      · split <;> simp [Fault.isCallFault]
      · split <;> simp [Fault.isCallFault]
    · exact fromCalls_callFaults _ _
    · exact fromCalls_of_forall (by simp)

theorem fromCalls_expressionFaults : FromCalls functions (line.expressionFaults functions) := by
  rw [expressionFaults]
  split
  · apply fromCalls_flatMap
    intro slot _
    rw [slotFaults]
    split
    · exact fromCalls_of_forall (by simp [Fault.isCallFault])
    · apply fromCalls_flatMap
      intro e _
      refine fromCalls_append.mpr ⟨fromCalls_of_forall ?_, fromCalls_flatMap fun part _ => ?_⟩
      · split <;> simp [Fault.isCallFault]
      · split
        · exact fromCalls_callFaults _ _
        · exact fromCalls_of_forall (by simp)
  · exact fromCalls_of_forall (by simp [Fault.isCallFault])

/-- The faults of calls on a line are those of the calls that it makes, as they are seen. -/
theorem fromCalls_faults : FromCalls functions (line.faults functions) := by
  rw [faults, fromCalls_append, fromCalls_append, fromCalls_append]
  refine ⟨⟨⟨fromCalls_of_forall ?_, fromCalls_structureFaults⟩, fromCalls_of_forall ?_⟩,
    fromCalls_expressionFaults⟩
  · rw [idFaults]
    split <;> simp [Fault.isCallFault]
  · rw [constantFaults]
    split
    · simp
    · split <;> simp [Fault.isCallFault]

/-- The faults of a call that is seen as it reads are faults of its line. -/
theorem mem_faults_of_calls (hcalls : line.Calls form word count) (hplain : line.CallsPlainly form)
    {fault : Fault} (h : fault ∈ callFaults functions word count) :
    fault ∈ line.faults functions := by
  rw [faults, List.mem_append, List.mem_append, List.mem_append]
  cases form with
  | statement =>
      obtain ⟨hkind, hname, args, hargs, rfl⟩ := hcalls
      obtain ⟨htyped, hcommas⟩ := hplain
      refine .inl (.inl (.inr ?_))
      rw [structureFaults, List.mem_append, kindFaults, hkind]
      dsimp only
      rw [htyped.trim_eq hname, listLength_eq_length hargs (hcommas args hargs)]
      exact .inr h
  | expression =>
      obtain ⟨slot, hslot, exprs, hread, e, he, span, args, hcall, rfl⟩ := hcalls
      rw [CallsPlainly] at hplain
      refine .inr ?_
      rw [expressionFaults, hplain]
      dsimp only
      refine List.mem_flatMap.mpr ⟨slot, hslot, ?_⟩
      rw [slotFaults, hread]
      dsimp only
      refine List.mem_flatMap.mpr ⟨e, he, List.mem_append.mpr (.inr ?_)⟩
      exact List.mem_flatMap.mpr ⟨_, hcall, h⟩

/-- What is called may stand for a name. -/
theorem Calls.nameable (h : line.Calls form word count) : Nameable word := by
  cases form with
  | statement =>
      obtain ⟨-, ⟨span, hread⟩, -⟩ := h
      obtain ⟨text, -, hparse, hnames⟩ := prepare_eq_ok_iff.mp hread
      have hself := Expr.mem_parts_self (.name span word)
      exact nameable_of_checkNames hnames hself (Expr.ownLegible_of_parseExpr hparse _ hself) rfl
  | expression =>
      obtain ⟨slot, -, exprs, hread, e, he, span, args, hcall, -⟩ := h
      exact Statement.nameable_of_readSlot hread he hcall rfl

end Line

namespace Block

variable {program : Block} {line : Line}

theorem mem_validate_iff {finding : Finding} :
    finding ∈ program.validate ↔ ∃ line ∈ program.outline.lines,
      ∃ fault ∈ line.faults program.outline.functions, line.finding fault = finding := by
  rw [validate, Outline.findings, List.mem_flatMap]
  exact exists_congr fun line => and_congr_right fun _ => List.mem_map

/-- The faults that a call that is seen as it reads would have are found, and no others of the
sort. -/
theorem finding_mem_validate_iff (hline : line ∈ program.outline.lines) {form : CallForm}
    {word : String} {count : Nat} (hcalls : line.Calls form word count)
    (hplain : line.CallsPlainly form) :
    (line.finding (.undefinedFunction word) ∈ program.validate ↔
      findFunction? program.outline.functions word = none) ∧
    ∀ expected, line.finding (.argumentCount word expected count) ∈ program.validate ↔
      ∃ f, findFunction? program.outline.functions word = some f ∧
        f.parameters = expected ∧ expected ≠ count := by
  have mem_of {fault : Fault} (h : fault ∈ Line.callFaults program.outline.functions word count) :
      line.finding fault ∈ program.validate :=
    mem_validate_iff.mpr ⟨line, hline, fault, Line.mem_faults_of_calls hcalls hplain h, rfl⟩
  have exists_of {fault : Fault} (hcall : fault.isCallFault = true)
      (h : line.finding fault ∈ program.validate) :
      ∃ name found, fault ∈ Line.callFaults program.outline.functions name found := by
    obtain ⟨other, -, fault', hfault, heq⟩ := mem_validate_iff.mp h
    obtain rfl : fault' = fault := congrArg Finding.fault heq
    exact Line.fromCalls_faults fault' hfault hcall
  refine ⟨⟨fun h => ?_, fun h => ?_⟩, fun expected => ⟨fun h => ?_, fun h => ?_⟩⟩
  · obtain ⟨name, found, hfault⟩ := exists_of rfl h
    exact (Line.mem_callFaults_undefinedFunction.mp hfault).2
  · exact mem_of (Line.mem_callFaults_undefinedFunction.mpr ⟨rfl, h⟩)
  · obtain ⟨name, found, hfault⟩ := exists_of rfl h
    exact (Line.mem_callFaults_argumentCount.mp hfault).2.2
  · exact mem_of (Line.mem_callFaults_argumentCount.mpr ⟨rfl, rfl, h⟩)

/-- Calls are checked against the definitions that are read. A call of a word, on a line of its own
or inside an expression, is found to be of no function exactly where no definition reads as the
word; and it is found to have a wrong number of arguments exactly where it has another number than
the first definition has parameters. For a call on a line of its own, and for definitions, names
are typed plainly and items are written without commas; a call inside an expression is not found
on a line with bracket problems. -/
theorem validate_checks_calls (hline : line ∈ program.outline.lines) {form : CallForm}
    {word : String} {count : Nat} (hcalls : line.Calls form word count)
    (hplain : line.CallsPlainly form)
    (hdefinitions : ∀ s ∈ program.statements, s.DefinesPlainly word) :
    (line.finding (.undefinedFunction word) ∈ program.validate ↔
      ∀ s ∈ program.statements, ¬ s.Defines word) ∧
    ∀ before first behind params, program.statements = before ++ first :: behind →
      (∀ s ∈ before, ¬ s.Defines word) → first.Defines word →
      prepareList (first.slot 1) = .ok params → (∀ e ∈ params, e.commas = 0) →
      ∀ expected, line.finding (.argumentCount word expected count) ∈ program.validate ↔
        expected = params.length ∧ params.length ≠ count := by
  have hword := hcalls.nameable
  obtain ⟨hundefined, hcount⟩ := finding_mem_validate_iff hline hcalls hplain
  refine ⟨?_, ?_⟩
  · rw [hundefined, functions_eq, Statement.findFunction?_eq_none_iff hword hdefinitions]
  · intro before first behind params hsplit hbefore hfirst hparams hcommas expected
    rw [hsplit] at hdefinitions
    rw [hcount, functions_eq, hsplit,
      Statement.findFunction?_eq_some hword hdefinitions hbefore hfirst,
      listLength_eq_length hparams hcommas]
    constructor
    · rintro ⟨f, hf, rfl, hne⟩
      cases hf
      exact ⟨rfl, hne⟩
    · rintro ⟨rfl, hne⟩
      exact ⟨_, rfl, rfl, hne⟩

/-- A function of two parameters, called with one argument, and another call inside an argument. -/
def shortCalls : Block :=
  .ofNodes [
    ⟨⟨"1", .defineFunction, ["f", "x, y"], false, false⟩, .nil⟩,
    ⟨⟨"2", .endFunction, [], false, false⟩, .nil⟩,
    ⟨⟨"3", .callFunction, [" f", "max(3)"], false, false⟩, .nil⟩,
    ⟨⟨"4", .output, ["UserDefined:f(UserDefined:g(2), 3)"], false, false⟩, .nil⟩]

/-- On the third line an argument is missing; on the fourth, the outer call fits and the function of
the inner one is not defined. -/
theorem validate_checks_calls_shortCalls :
    (∀ s ∈ shortCalls.statements, ∀ word, s.DefinesPlainly word) ∧
    (Line.Calls shortCalls.outline.lines[2] .statement "f" 1 ∧
      Line.CallsPlainly shortCalls.outline.lines[2] .statement ∧
      shortCalls.outline.lines[2].finding (.argumentCount "f" 2 1) ∈ shortCalls.validate) ∧
    Line.CallsPlainly shortCalls.outline.lines[3] .expression ∧
    (Line.Calls shortCalls.outline.lines[3] .expression "f" 2 ∧
      ∀ expected,
        shortCalls.outline.lines[3].finding (.argumentCount "f" expected 2) ∉ shortCalls.validate) ∧
    Line.Calls shortCalls.outline.lines[3] .expression "g" 1 ∧
      shortCalls.outline.lines[3].finding (.undefinedFunction "g") ∈ shortCalls.validate := by
  have hdefinitions : ∀ s ∈ shortCalls.statements, ∀ word, s.DefinesPlainly word := by
    have hslot : ∀ s ∈ shortCalls.statements, s.kind = .defineFunction → s.slot 0 = "f" := by decide
    have hf : PlainlyTyped "f" := .of_all (by decide +kernel) (by decide)
    intro s hs word hkind _
    rw [hslot s hs hkind]
    exact hf
  have hparams : prepareList "x, y" = .ok [.name ⟨0, 1⟩ "x", .name ⟨3, 4⟩ "y"] := by
    decide +kernel
  have hargs : prepareList "max(3)" = .ok [.call ⟨0, 6⟩ "max" [.number ⟨4, 5⟩ "3"] false] := by
    decide +kernel
  have hdefines : Statement.Defines ⟨"1", .defineFunction, ["f", "x, y"], false, false⟩ "f" := by
    decide +kernel
  have hthird : Line.Calls shortCalls.outline.lines[2] .statement "f" 1 :=
    ⟨rfl, by decide +kernel, _, hargs, rfl⟩
  have hplain : Line.CallsPlainly shortCalls.outline.lines[2] .statement := by
    refine ⟨.of_all (by decide +kernel) (by decide), fun args h => ?_⟩
    cases hargs.symm.trans h
    decide
  have hbrackets : Line.CallsPlainly shortCalls.outline.lines[3] .expression := by
    rw [Line.CallsPlainly]
    decide
  have hslot : Statement.readSlot shortCalls.outline.lines[3].statement 0 =
      .ok [.call ⟨0, 34⟩ "f" [.call ⟨14, 30⟩ "g" [.number ⟨28, 29⟩ "2"] true,
        .number ⟨32, 33⟩ "3"] true] := by
    decide +kernel
  have houter : Line.Calls shortCalls.outline.lines[3] .expression "f" 2 :=
    ⟨0, by decide, _, hslot, _, .head _, _, _, .head _, rfl⟩
  have hinner : Line.Calls shortCalls.outline.lines[3] .expression "g" 1 :=
    ⟨0, by decide, _, hslot, _, .head _, _, _, .tail _ (.head _), rfl⟩
  refine ⟨hdefinitions, ⟨hthird, hplain, ?_⟩, hbrackets, ⟨houter, fun expected h => ?_⟩,
    hinner, ?_⟩
  · exact ((validate_checks_calls (List.getElem_mem _) hthird hplain
      fun s hs => hdefinitions s hs "f").2 [] _ _ _ rfl (by simp) hdefines hparams
        (by decide) 2).mpr ⟨rfl, by decide⟩
  · exact ((((validate_checks_calls (List.getElem_mem _) houter hbrackets
      fun s hs => hdefinitions s hs "f").2 [] _ _ _ rfl (by simp) hdefines hparams
        (by decide) expected).mp h).2 rfl).elim
  · have hnone : ∀ s ∈ shortCalls.statements, ¬ s.Defines "g" := by
      decide +kernel
    exact (validate_checks_calls (List.getElem_mem _) hinner hbrackets
      fun s hs => hdefinitions s hs "g").1.mpr hnone

/-- A definition is counted as it is typed, also where its parameters do not read, and a bracket
problem keeps a line from being read, with the calls that are in it. -/
def misseenCalls : Block :=
  .ofNodes [
    ⟨⟨"1", .defineFunction, ["h", "x y"], false, false⟩, .nil⟩,
    ⟨⟨"2", .endFunction, [], false, false⟩, .nil⟩,
    ⟨⟨"3", .callFunction, ["h", ""], false, false⟩, .nil⟩,
    ⟨⟨"4", .output, ["UserDefined:k(1)", ")"], false, false⟩, .nil⟩]

/-- What is found of each of these calls is not what its line and the definitions read as. -/
theorem misseenCalls_disagree :
    misseenCalls.ids.Nodup ∧
    (Line.Calls misseenCalls.outline.lines[2] .statement "h" 0 ∧
      Statement.Defines ⟨"1", .defineFunction, ["h", "x y"], false, false⟩ "h" ∧
      (prepareList "x y").toOption = none ∧
      misseenCalls.outline.lines[2].finding (.argumentCount "h" 1 0) ∈ misseenCalls.validate) ∧
    (Line.Calls misseenCalls.outline.lines[3] .expression "k" 1 ∧
      (∀ s ∈ misseenCalls.statements, ¬ s.Defines "k") ∧
      misseenCalls.outline.lines[3].finding (.undefinedFunction "k") ∉
        misseenCalls.validate) := by
  have hempty : prepareList "" = .ok [] := by
    decide +kernel
  have hunread : (prepareList "x y").toOption = none := by
    decide +kernel
  have hslot : Statement.readSlot misseenCalls.outline.lines[3].statement 0 =
      .ok [.call ⟨0, 16⟩ "k" [.number ⟨14, 15⟩ "1"] true] := by
    decide +kernel
  refine ⟨by decide, ⟨⟨rfl, ?_, _, hempty, rfl⟩, ?_, hunread, ?_⟩,
    ⟨0, by decide, _, hslot, _, .head _, _, _, .head _, rfl⟩, ?_, ?_⟩
  all_goals decide +kernel

end Block

end BlockCode
