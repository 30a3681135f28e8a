/- # What a form writes to

A statement writes to plain names and to elements of arrays, and a form holds the names to a
grammar. The names are held to it as they are typed, while a slot is read after its glyphs are
folded. Where a name is still a name then, and the operand that is written to is a variable or an
element of an array, the slot reads as something that may be written to.
-/

import BlockCode.Proofs.Form.Entered
import BlockCode.Proofs.Form.Pieces

namespace BlockCode

/-! ## Names between commas -/

/-- The words are names without dots, and commas. -/
def NamesOnly (words : List (TokenKind × String)) : Prop :=
  ∀ word ∈ words, word.1 = .comma ∨ word.1 = .name ∧ '.' ∉ word.2.toList

theorem namesOnly_append {words words' : List (TokenKind × String)} :
    NamesOnly (words ++ words') ↔ NamesOnly words ∧ NamesOnly words' :=
  List.forall_mem_append

/-- What a phrase is where its tokens are names and commas: its expressions are the names, and it
has neither operators nor positions. -/
def Phrase.NamesAlone : Phrase → List Token → Prop
  | .expr _ e, ws => ∃ token, ws = [token] ∧ token.kind = .name ∧ e = .name token.span token.text
  | .operators _ base e, ws | .positions base e, ws => ws = [] ∧ e = base
  | .arguments .., _ => False
  | .items args, ws =>
    ∀ e ∈ args, ∃ token ∈ ws, token.kind = .name ∧ e = .name token.span token.text

theorem Derives.namesAlone {phrase : Phrase} {ws : List Token} (h : Derives phrase ws)
    (hkinds : ∀ token ∈ ws, token.kind ∈ [.comma, .name]) : phrase.NamesAlone ws := by
  induction h with
  | chain _ _ _ ihfirst ihrest =>
      rw [List.forall_mem_append] at hkinds
      obtain ⟨token, rfl, hkind, rfl⟩ := ihfirst hkinds.1
      obtain ⟨rfl, rfl⟩ := ihrest hkinds.2
      exact ⟨token, rfl, hkind, rfl⟩
  | noOperator | noPosition => exact ⟨rfl, rfl⟩
  | @operator level _ _ _ _ token _ _ _ _ htoken =>
      have hnone : ∀ kind ∈ [TokenKind.comma, .name], level.operator? kind = none := by
        cases level <;> decide
      rw [hnone _ (hkinds token (.head _))] at htoken
      cases htoken
  | unsigned _ ih | unraised _ ih => exact ih hkinds
  | negate htoken | not htoken | number htoken | string htoken | trueWord htoken
  | falseWord htoken | group htoken | userCall htoken | position htoken | noArgument htoken
  | arguments htoken =>
      have hkind := hkinds _ (.head _)
      rw [htoken] at hkind
      exact absurd hkind (by decide)
  | raised _ htoken =>
      have hkind := hkinds _ (List.mem_append_right _ (.head _))
      rw [htoken] at hkind
      exact absurd hkind (by decide)
  | @name token e ws htoken _ ih =>
      obtain ⟨rfl, rfl⟩ := ih (List.forall_mem_cons.mp hkinds).2
      exact ⟨token, rfl, htoken, rfl⟩
  | call _ _ _ _ ihargs | builtin _ _ _ _ _ ihargs =>
      rw [List.forall_mem_cons, List.forall_mem_append] at hkinds
      exact (ihargs hkinds.2.1).elim
  | lastItem _ ih =>
      obtain ⟨token, rfl, hkind, rfl⟩ := ih hkinds
      exact List.forall_mem_singleton.mpr ⟨token, .head _, hkind, rfl⟩
  | nextItem _ _ _ ihe ihrest =>
      rw [List.forall_mem_append, List.forall_mem_cons] at hkinds
      obtain ⟨token, rfl, hkind, rfl⟩ := ihe hkinds.1
      refine List.forall_mem_cons.mpr ⟨⟨token, .head _, hkind, rfl⟩, fun e he => ?_⟩
      obtain ⟨token', htoken', heq⟩ := ihrest hkinds.2.2 e he
      exact ⟨token', .tail _ (.tail _ htoken'), heq⟩

/-- Names without dots may be written to. -/
theorem WriteTarget.admits_of_namesOnly {exprs : List Expr} {tokens : List Token}
    (h : Derives (.items exprs) tokens) (hnames : NamesOnly (tokens.map Token.word))
    (target : WriteTarget) : ∀ e ∈ exprs, target.admits e = true := by
  rw [NamesOnly, List.forall_mem_map] at hnames
  have hkinds : ∀ token ∈ tokens, token.kind ∈ [.comma, .name] := by
    intro token htoken
    rcases hnames token htoken with hcomma | ⟨hname, -⟩
    · rw [show token.kind = .comma from hcomma]
      exact .head _
    · rw [show token.kind = .name from hname]
      exact .tail _ (.head _)
  intro e he
  obtain ⟨token, htoken, hkind, rfl⟩ := h.namesAlone hkinds e he
  have hdots : '.' ∉ token.text.toList := by
    rcases hnames token htoken with hcomma | ⟨-, hdots⟩
    · exact absurd (hkind.symm.trans hcomma) (by decide)
    · exact hdots
  cases target with
  | name => simpa [admits] using hdots
  | element => rfl

/-! ## Elements of arrays -/

/-- The words are a name and something in brackets. -/
def ElementWords (words : List (TokenKind × String)) : Prop :=
  ∃ name position, words =
    (.name, name) :: (.leftBracket, "[") :: (position ++ [(.rightBracket, "]")]) ∧
      ∀ word ∈ position, word.1 ≠ .rightBracket

/-- A name with tokens in brackets spells the element at the position that the tokens spell. -/
theorem Spells.exists_position {name opening closing : Token} {ws : List Token} {e : Expr}
    (h : Spells (name :: opening :: (ws ++ [closing])) e) (hname : name.kind = .name)
    (hopening : opening.kind = .leftBracket) (hws : ∀ token ∈ ws, token.kind ≠ .rightBracket) :
    ∃ position, Spells ws position ∧
      e = .index ⟨name.span.start, closing.span.stop⟩ (.name name.span name.text) position := by
  obtain ⟨left, mid, hleft, hrest⟩ := reads_parseAbove.mp (reads_parseAbove_lowest_iff_spells.mpr h)
  rw [reads_parseOperand_cons, hname] at hleft
  dsimp only at hleft
  rw [reads_parseNamed_cons, if_neg (by simp [hopening]), reads_parsePositions_cons,
    if_pos hopening] at hleft
  obtain ⟨position, closing', behind, hposition, hclosing', hpositions⟩ := hleft
  obtain ⟨ws', heq, hderives, -⟩ := derives_of_reads_parseAbove (by decide) hposition
  -- The closing bracket is the only one, so nothing stands behind it.
  obtain rfl : behind = [] := by
    rcases List.eq_nil_or_concat behind with rfl | ⟨front, last, rfl⟩
    · rfl
    · rw [List.concat_eq_append, ← List.cons_append, ← List.append_assoc] at heq
      refine absurd hclosing' (hws closing' ?_)
      rw [(List.append_inj' heq rfl).1]
      exact List.mem_append_right _ (.head _)
  obtain ⟨rfl, rfl⟩ := reads_parsePositions_nil.mp hpositions
  obtain ⟨rfl, -⟩ := reads_parseOperators_nil.mp hrest
  obtain ⟨rfl, hlast⟩ := List.append_inj' heq rfl
  obtain rfl := List.singleton_inj.mp hlast
  exact ⟨position, hderives, rfl⟩

/-- An element of an array may be written to. -/
theorem Spells.isSome_assignableName? {name opening closing : Token} {ws : List Token} {e : Expr}
    (h : Spells (name :: opening :: (ws ++ [closing])) e) (hname : name.kind = .name)
    (hopening : opening.kind = .leftBracket) (hws : ∀ token ∈ ws, token.kind ≠ .rightBracket) :
    e.assignableName?.isSome = true := by
  obtain ⟨position, -, rfl⟩ := h.exists_position hname hopening hws
  rfl

/-! ## Slots that are written to -/

/-- The words that a slot has where it may be written to. -/
def WriteTarget.Holds : WriteTarget → List (TokenKind × String) → Prop
  | .name, words => NamesOnly words
  | .element, words => NamesOnly words ∨ ElementWords words

theorem WriteTarget.admits_of_spells {target : WriteTarget} {tokens : List Token} {e : Expr}
    (h : Spells tokens e) (hwords : target.Holds (tokens.map Token.word)) :
    target.admits e = true := by
  have of_names (hnames : NamesOnly (tokens.map Token.word)) : target.admits e = true :=
    admits_of_namesOnly (.lastItem h) hnames target e (.head _)
  cases target with
  | name => exact of_names hwords
  | element =>
      rcases hwords with hnames | ⟨name, position, heq, hposition⟩
      · exact of_names hnames
      · obtain ⟨first, _, rfl, hfirst, heq⟩ := List.map_eq_cons_iff.mp heq
        obtain ⟨opening, _, rfl, hopening, heq⟩ := List.map_eq_cons_iff.mp heq
        obtain ⟨ws, last, rfl, rfl, hlast⟩ := List.map_eq_append_iff.mp heq
        obtain ⟨closing, rfl, -⟩ := List.map_eq_singleton_iff.mp hlast
        rw [List.forall_mem_map] at hposition
        exact Spells.isSome_assignableName? h (congrArg Prod.fst hfirst)
          (congrArg Prod.fst hopening) hposition

/-- Elements stand in no list. -/
theorem StatementKind.eq_name_of_isListSlot {kind : StatementKind} {slot : Nat}
    (hlist : kind.isListSlot slot = true) {target : WriteTarget}
    (h : kind.writeTarget? slot = some target) : target = .name := by
  obtain ⟨hslot, hkind⟩ := Bool.and_eq_true_iff.mp hlist
  obtain rfl := eq_of_beq hslot
  cases kind with
  | initializeArray | callFunction => cases h
  | defineFunction =>
      cases h
      rfl
  | _ => cases hkind

/-- A slot whose pieces hold what may be written to reads as that. -/
theorem Statement.admits_of_readSlot {s : Statement} {slot : Nat} {target : WriteTarget}
    (hslot : Unnegated (s.slot slot)) (hlist : s.kind.isListSlot slot = true → target = .name)
    (hwords : ReadsApart (s.slot slot).toList [] target.Holds) {exprs : List Expr}
    (hread : s.readSlot slot = .ok exprs) : ∀ e ∈ exprs, target.admits e = true := by
  have hreads := ReadsTo.of_readsApart hslot hwords
  rw [readSlot] at hread
  split at hread
  · next hlistSlot =>
    obtain rfl := hlist hlistSlot
    rcases hreads.exists_derives hread with rfl | ⟨tokens, hderives, hnames⟩
    · exact List.forall_mem_nil _
    · exact WriteTarget.admits_of_namesOnly hderives hnames .name
  · obtain ⟨e, hprepare, rfl⟩ := map_eq_ok_iff.mp hread
    obtain ⟨tokens, hspells, hholds⟩ := hreads.exists_spells hprepare
    exact List.forall_mem_singleton.mpr (WriteTarget.admits_of_spells hspells hholds)

namespace Form

variable {form : Form} {functions : List FunctionSignature} {kind : StatementKind}

/-- Once its glyphs are folded, the text is one name without dots. -/
def StaysName (text : String) : Prop :=
  ∃ word, '.' ∉ word.toList ∧ FoldsToName text word

/-- The names that a statement of the kind writes to, as the form holds them. Parameters count as
written to. -/
def writtenNames (form : Form) : StatementKind → List String
  | .assign | .initializeArray | .bulkAssign | .increment | .decrement =>
    (form.operand? .left 0).toList
  | .forIncrement | .forDecrement => (form.field? .loopVariable).toList
  | .callFunction => (form.field? .functionName).toList
  | .defineFunction => (form.field? .functionName).toList ++ form.listItems .arguments
  | _ => []

/-- Whether the statement writes to whatever its first left operand gives, and not just to a name.
-/
def writesOperand (form : Form) : StatementKind → Bool
  | .increment | .decrement => true
  | .assign => !form.declaresConstant
  | _ => false

/-- The form writes to names that stay names, and to no operand but variables and elements of
arrays. Nothing in a slot that is written to is negated from behind. -/
structure WritesPlainly (form : Form) (kind : StatementKind) (slots : List String) : Prop where
  unnegated : ∀ slot < slots.length, (kind.writeTarget? slot).isSome = true →
    Unnegated (slots.getD slot "")
  names : ∀ name ∈ form.writtenNames kind, StaysName name
  operand : form.writesOperand kind = true → ∀ operand, form.operand? .left 0 = some operand →
    form.operandField? .left .function 0 = none ∧
      form.operandType? .left 0 operand ∈ [some .variable, some .array]

theorem StaysName.readsApart {text : String} (h : StaysName text) {rest : List Char}
    (hrest : Breaks rest) : ReadsApart text.toList rest NamesOnly := by
  obtain ⟨word, hdots, hname⟩ := h
  refine (ReadsApart.name hname hrest).mono ?_
  rintro _ rfl
  exact List.forall_mem_singleton.mpr (.inr ⟨rfl, hdots⟩)

/-- A name with a position is an element. -/
theorem StaysName.readsApart_element {text position : String} (h : StaysName text)
    (hposition : PlainText position.toList) :
    ReadsApart (text ++ "[" ++ position ++ "]").toList [] ElementWords := by
  obtain ⟨word, -, hname⟩ := h
  have hopening (rest : List Char) : ReadsApart ['['] rest (· = [(.leftBracket, "[")]) :=
    ReadsApart.of_token (by decide) fun _ => rfl
  have hclosing : ReadsApart [']'] [] (· = [(.rightBracket, "]")]) :=
    ReadsApart.of_token (by decide) fun _ => rfl
  have hinner := (ReadsApart.of_plainText hposition (breaks_cons.mpr (by decide))).append hclosing
  have hpieces := (ReadsApart.name hname (breaks_cons.mpr (by decide))).append
    ((hopening _).append hinner)
  have helement : ReadsApart (text.toList ++ (['['] ++ (position.toList ++ [']']))) []
      ElementWords := by
    refine hpieces.mono ?_
    rintro _ ⟨_, _, rfl, rfl, _, _, rfl, rfl, words, _, rfl, hwords, rfl⟩
    exact ⟨word, words, rfl, fun found hfound hkind => hwords found hfound (hkind ▸ by decide)⟩
  simpa using helement

/-- What an assignment writes to holds what may be written to. -/
theorem readsApart_target {constant : Bool} (h : (form.target functions constant).errors = [])
    (hname : ∀ name, form.operand? .left 0 = some name → StaysName name)
    (hoperand : constant = false → ∀ operand, form.operand? .left 0 = some operand →
      form.operandField? .left .function 0 = none ∧
        form.operandType? .left 0 operand ∈ [some .variable, some .array]) :
    ReadsApart (form.target functions constant).value.toList [] WriteTarget.element.Holds := by
  rcases exists_of_target h with ⟨-, name, hleft, hvalue, -⟩ | ⟨hconstant, henters⟩
  · rw [hvalue]
    exact ((hname name hleft).readsApart breaks_nil).mono fun _ => .inl
  · have hplain := hoperand hconstant
    generalize (form.target functions constant).value = text at henters ⊢
    cases henters with
    | builtin hleft hfunction | user hleft hfunction =>
        rw [(hplain _ hleft).1] at hfunction
        cases hfunction
    | number hleft _ htype | string hleft _ htype | boolean hleft _ htype =>
        have hmem := (hplain _ hleft).2
        rw [htype] at hmem
        exact absurd hmem (by decide)
    | plain hleft => exact ((hname _ hleft).readsApart breaks_nil).mono fun _ => .inl
    | element hleft _ _ hposition =>
        have hplainPosition := plainText_trimChars_iff.mpr (plainText_of_isPositionText hposition)
        refine ((hname _ hleft).readsApart_element ?_).mono fun _ => .inr
        rwa [trim, String.toList_ofList]

/-- A name that a form holds is what it writes to. -/
theorem readsApart_name {text? : Option String} (hplain : ∀ name ∈ text?.toList, StaysName name)
    {name : String} (h : text? = some name) : ReadsApart name.toList [] NamesOnly :=
  (hplain name (h ▸ .head _)).readsApart breaks_nil

/-- Each slot that is written to holds what may be written to there. -/
theorem readsApart_written {slots : List String}
    (h : (form.enteredSlots functions kind).errors = []) (hplain : form.WritesPlainly kind slots)
    {slot : Nat} {target : WriteTarget} (htarget : kind.writeTarget? slot = some target) :
    ReadsApart ((form.enteredSlots functions kind).value.getD slot "").toList [] target.Holds := by
  have hnames := hplain.names
  have hoperand := hplain.operand
  have first {found : WriteTarget}
      (htarget : (if slot == 0 then some found else none) = some target) :
      slot = 0 ∧ found = target := by
    split at htarget
    · next hslot => exact ⟨eq_of_beq hslot, Option.some.inj htarget⟩
    · cases htarget
  cases kind with
  | assign =>
      obtain ⟨rfl, rfl⟩ := first htarget
      rw [enteredSlots] at h ⊢
      refine readsApart_target (Checked.errors_bind_eq_nil_iff.mp h).1
        (fun name hleft => hnames name (Option.mem_toList.mpr hleft)) fun hconstant => hoperand ?_
      rw [writesOperand, hconstant]
      rfl
  | increment | decrement =>
      obtain ⟨rfl, rfl⟩ := first htarget
      rw [enteredSlots] at h ⊢
      have hwritten := readsApart_target (Checked.errors_bind_eq_nil_iff.mp h).1
        (fun name hleft => hnames name (Option.mem_toList.mpr hleft)) fun _ => hoperand rfl
      rw [Checked.value_bind]
      split <;> exact hwritten
  | initializeArray | bulkAssign =>
      obtain ⟨rfl, rfl⟩ := first htarget
      rw [enteredSlots] at h ⊢
      obtain ⟨name, hname, hvalue, -⟩ := exists_of_leftName (Checked.errors_bind_eq_nil_iff.mp h).1
      have hwritten := readsApart_name hnames hname
      rw [← hvalue] at hwritten
      exact hwritten
  | forIncrement | forDecrement =>
      obtain ⟨rfl, rfl⟩ := first htarget
      rw [enteredSlots] at h ⊢
      obtain ⟨name, _, _, _, hname, hvalue, -⟩ := exists_of_loopHeader h
      rw [hvalue]
      exact readsApart_name hnames hname
  | callFunction =>
      obtain ⟨rfl, rfl⟩ := first htarget
      rw [enteredSlots] at h ⊢
      obtain ⟨name, _, hname, hvalue, -⟩ := exists_of_callSlots h
      rw [hvalue]
      exact readsApart_name hnames hname
  | defineFunction =>
      cases htarget
      rw [enteredSlots] at h ⊢
      obtain ⟨hfirst, hrest⟩ := Checked.errors_bind_eq_nil_iff.mp h
      obtain ⟨name, hname, hvalue, -⟩ := exists_of_nameField hfirst
      rw [writtenNames, List.forall_mem_append] at hnames
      cases slot with
      | zero =>
          have hwritten := readsApart_name hnames.1 hname
          rw [← hvalue] at hwritten
          exact hwritten
      | succ slot =>
          cases slot with
          | succ => exact ReadsApart.nil (List.forall_mem_nil _)
          | zero =>
              change ReadsApart (", ".intercalate (form.listField _ _).value).toList [] NamesOnly
              rw [value_listField]
              exact ReadsApart.intercalate (fun _ _ hws hws' => namesOnly_append.mpr ⟨hws, hws'⟩)
                (List.forall_mem_nil _) (List.forall_mem_singleton.mpr (.inl rfl))
                (fun item hitem rest hrest => (hnames.2 item hitem).readsApart hrest) breaks_nil
  | _ => cases htarget

/-- What a statement writes to may be written to, where its form writes plainly. -/
theorem admits_of_slots {s : Statement} (h : form.slots functions s.kind = .ok s.slots)
    (hplain : form.WritesPlainly s.kind s.slots) {slot : Nat} {target : WriteTarget}
    (hslot : slot ∈ s.expressionSlots) (htarget : s.kind.writeTarget? slot = some target)
    {exprs : List Expr} (hread : s.readSlot slot = .ok exprs) :
    ∀ e ∈ exprs, target.admits e = true := by
  obtain ⟨herrors, hvalue, -⟩ := slots_eq_ok_iff.mp h
  have hwords := readsApart_written herrors hplain htarget
  rw [hvalue] at hwords
  have hunnegated : Unnegated (s.slot slot) :=
    hplain.unnegated slot (StatementKind.lt_of_mem_expressionSlots hslot) (by rw [htarget]; rfl)
  exact Statement.admits_of_readSlot hunnegated
    (fun hlist => StatementKind.eq_name_of_isListSlot hlist htarget) hwords hread

end Form

end BlockCode
