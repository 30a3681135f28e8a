/- # String operands read back

A string operand may be typed with quotes around it or without. The form takes the quotes off,
protects what in the contents could end the literal, and quotes them again. What reads the literal
later folds its glyphs, moves negations, checks brackets and takes the backslashes away, and each of
these has its own idea of where the literal ends. All of them agree with the form, but for one
character: folding takes a full-width quote for the end of any string, and the form does not protect
it.

So a string operand reads back as its contents exactly when they have no full-width quote. Where
they have one, folding turns it into the quote that it takes it for, and no later stage brings it
back.
-/

import BlockCode.Proofs.Expr.Equality
import BlockCode.Proofs.Form.Entered
import BlockCode.Proofs.Form.Lists
import BlockCode.Proofs.Form.Pieces
import BlockCode.Proofs.Fragment.Stability
import BlockCode.Proofs.Names.Reserved

namespace BlockCode

/-! ## Contents of a string operand -/

/-- What the contents of a string operand are: what stands between quotes of one kind, where the
operand is typed in such, and the whole operand otherwise. -/
inductive Unquotes : List Char → List Char → Prop
  | quotes (contents : List Char) : Unquotes ('"' :: (contents ++ ['"'])) contents
  | corners (contents : List Char) : Unquotes ('「' :: (contents ++ ['」'])) contents
  | bare {operand : List Char} (hquotes : ∀ contents, operand ≠ '"' :: (contents ++ ['"']))
      (hcorners : ∀ contents, operand ≠ '「' :: (contents ++ ['」'])) : Unquotes operand operand

theorem enclosed?_eq_some_iff {first last : Char} {text inner : List Char} :
    enclosed? first last text = some inner ↔ text = first :: (inner ++ [last]) := by
  constructor
  · intro h
    cases text with
    | nil => cases h
    | cons c rest =>
        obtain ⟨hends, hinner⟩ := Option.ite_none_right_eq_some.mp h
        cases hinner
        rw [Bool.and_eq_true, beq_iff_eq, beq_iff_eq] at hends
        obtain ⟨rfl, hlast⟩ := hends
        rw [List.dropLast_append_getLast? _ hlast]
  · rintro rfl
    simp [enclosed?]

/-- The form takes the quotes off a string operand, and nothing else. -/
theorem Unquotes.stringContents_eq {operand contents : List Char} (h : Unquotes operand contents) :
    stringContents operand = contents := by
  cases h with
  | quotes =>
      rw [stringContents, enclosed?_eq_some_iff.mpr rfl, Option.getD_some]
  | corners =>
      have hquotes : enclosed? '"' '"' ('「' :: (contents ++ ['」'])) = none := rfl
      rw [stringContents, hquotes, enclosed?_eq_some_iff.mpr rfl, Option.getD_none,
        Option.getD_some]
  | bare hquotes hcorners =>
      have none_of {first last : Char} (hbare : ∀ inner, operand ≠ first :: (inner ++ [last])) :
          enclosed? first last operand = none :=
        Option.eq_none_iff_forall_not_mem.mpr fun inner hinner =>
          hbare inner (enclosed?_eq_some_iff.mp hinner)
      rw [stringContents, none_of hquotes, none_of hcorners, Option.getD_none, Option.getD_none]

/-- Quoting a text gives its contents back. -/
theorem literalContents_stringLiteral_form (operand : String) :
    literalContents (stringLiteral operand) =
      String.ofList (stringContents operand.toList) := by
  rw [literalContents, toList_stringLiteral, List.tail_cons, List.dropLast_concat,
    escapedContents_eq, unescape_quoted quotesChars_escapedChar]

/-! ## Without full-width quotes -/

/-- No marker is found in the contents of a literal. -/
theorem splitAtMarkerFrom?_quoted {quoted : Char → List Char} (hquoted : QuotesChars quoted)
    {text : List Char} (h : splitAtMarkerFrom? .inside text = none) (contents : List Char) :
    splitAtMarkerFrom? .inside (contents.flatMap quoted ++ text) = none := by
  induction contents with
  | nil => exact h
  | cons c contents ih =>
      rw [List.flatMap_cons, List.append_assoc]
      rcases hquoted c with ⟨hc, -⟩ | ⟨hc, hslash, hquote⟩
      · have hafter : (Quotation.inside.after '\\').after c = .inside := rfl
        rw [hc, List.cons_append, List.singleton_append,
          splitAtMarkerFrom?_cons fun houtside => absurd houtside (by decide),
          splitAtMarkerFrom?_cons fun houtside => absurd houtside (by decide), hafter, ih]
        rfl
      · have hafter : Quotation.inside.after c = .inside := by
          simp [Quotation.after, hslash, hquote]
        rw [hc, List.singleton_append,
          splitAtMarkerFrom?_cons fun houtside => absurd houtside (by decide), hafter, ih]
        rfl

theorem splitAtMarkerFrom?_stringLiteral (operand : String) :
    splitAtMarkerFrom? .outside (stringLiteral operand).toList = none := by
  have hinside := @splitAtMarkerFrom?_quoted _ quotesChars_escapedChar ['"'] rfl
    (stringContents operand.toList)
  rw [← escapedContents_eq] at hinside
  have hafter : Quotation.outside.after '"' = .inside := rfl
  rw [toList_stringLiteral, splitAtMarkerFrom?_cons fun _ => rfl, hafter, hinside]
  rfl

/-- The reader takes the literal of a string operand for the string. -/
theorem exists_parseExpr_stringLiteral (operand : String) :
    ∃ span, parseExpr (stringLiteral operand) =
      .ok (.string span (String.ofList (stringContents operand.toList))) := by
  let token := Token.spelled .string 0 (stringLiteral operand).toList
  have htext : token.text = stringLiteral operand := String.ofList_toList
  have hspells : Spells [token] (.string token.span (literalContents token.text)) :=
    (Derives.string rfl).of_le (by decide) (by decide)
  rw [htext, literalContents_stringLiteral_form] at hspells
  refine ⟨token.span, ?_⟩
  rw [parseExpr, lexExpr, lex_stringLiteral]
  exact parseTokens_eq_ok_iff.mpr (reads_parseAbove_lowest_iff_spells.mpr hspells)

/-- Its brackets are fine, since a text that reads has no others. -/
theorem bracketErrors_stringLiteral (operand : String) :
    bracketErrors [(stringLiteral operand).toList] = [] := by
  obtain ⟨span, hparse⟩ := exists_parseExpr_stringLiteral operand
  refine bracketErrors_of_readable (.inl ⟨_, hparse⟩) fun tokens htokens => ?_
  cases (lex_stringLiteral operand).symm.trans htokens
  refine List.forall_mem_singleton.mpr fun hname => ?_
  rw [Token.kind_spelled] at hname
  cases hname

/-- The literal of a string operand reads as the string. -/
theorem exists_prepare_stringLiteral {operand : String}
    (h : '\uff02' ∉ stringContents operand.toList) :
    ∃ span, prepare (stringLiteral operand) =
      .ok (.string span (String.ofList (stringContents operand.toList))) := by
  have hnormal : normalizeText (stringLiteral operand) = .ok (stringLiteral operand) := by
    rw [normalizeText_eq_ok_iff, foldGlyphs_stringLiteral h]
    exact rewriteNegation_eq_self (splitAtMarkerFrom?_stringLiteral operand)
  obtain ⟨span, hparse⟩ := exists_parseExpr_stringLiteral operand
  exact ⟨span, prepare_eq_ok_iff.mpr ⟨_,
    checkedText_eq_ok_iff.mpr ⟨hnormal, bracketErrors_stringLiteral operand⟩, hparse, rfl⟩⟩

/-! ## With full-width quotes -/

/-- How many full-width quotes stand in a text. -/
abbrev isWideQuote (c : Char) : Bool :=
  c == '\uff02'

theorem isWideQuote_of_lt (c : Char) (h : c.toNat < 128) : isWideQuote c = false := by
  refine beq_eq_false_iff_ne.mpr ?_
  rintro rfl
  exact absurd h (by decide)

theorem isWideQuote_of_isBlank (c : Char) (h : isBlank c = true) : isWideQuote c = false :=
  beq_eq_false_iff_ne.mpr (ne_of_isBlank h (by decide))

/-- A token stands in the text that it was read from. -/
theorem Written.sublist {tokens : List Token} {text : List Char} (h : Written tokens text)
    {token : Token} (htoken : token ∈ tokens) : token.text.toList.Sublist text := by
  induction h with
  | nil => cases htoken
  | gap _ _ ih => exact (ih htoken).cons _
  | token first _ ih =>
      rcases List.mem_cons.mp htoken with rfl | htoken
      · exact List.sublist_append_left _ _
      · exact (ih htoken).trans (List.sublist_append_right _ _)

theorem unescape_sublist (text : List Char) : (unescape text).Sublist text := by
  fun_induction unescape text with
  | case1 => exact .slnil
  | case2 c hslash => exact List.nil_sublist _
  | case3 c hslash d rest ih => exact (ih.cons_cons d).cons c
  | case4 c rest hslash ih => exact ih.cons_cons c

/-- The contents of a string stand in the text that was read. -/
theorem sublist_of_parseExpr_string {text contents : String} {span : Span}
    (h : parseExpr text = .ok (.string span contents)) : contents.toList.Sublist text.toList := by
  obtain ⟨token, hlex, hleaf⟩ := exists_lex_eq_of_isLeaf h rfl
  rw [Token.leaf?] at hleaf
  split at hleaf <;> cases hleaf
  rw [literalContents, String.toList_ofList]
  exact (unescape_sublist _).trans <| (List.dropLast_sublist _).trans <|
    (List.tail_sublist _).trans ((written_of_lexFrom hlex).sublist (.head _))

theorem countP_escapedContents {p : Char → Bool} (hp : p '\\' = false) (contents : List Char) :
    (escapedContents contents).countP p = contents.countP p := by
  have hescaped (c : Char) : (escapedChar c).countP p = [c].countP p := by
    rw [escapedChar]
    split
    · rw [List.countP_cons_of_neg (by simp [hp])]
    · rfl
  induction contents with
  | nil => rfl
  | cons c contents ih =>
      rw [escapedContents_eq, List.flatMap_cons, List.countP_append, ← escapedContents_eq, ih,
        hescaped, ← List.countP_append, List.singleton_append]

/-- Folding loses a full-width quote of the contents. -/
theorem countP_foldGlyphs_stringLiteral {operand : String}
    (h : '\uff02' ∈ stringContents operand.toList) :
    (foldGlyphs (stringLiteral operand).toList).countP isWideQuote <
      (stringContents operand.toList).countP isWideQuote := by
  obtain ⟨front, behind, hcontents, hfront⟩ := List.eq_append_cons_of_mem h
  have hwide : escapedContents ('\uff02' :: behind) = '\uff02' :: escapedContents behind := rfl
  have hsplit : escapedContents (front ++ '\uff02' :: behind) =
      escapedContents front ++ '\uff02' :: escapedContents behind := by
    rw [← hwide, escapedContents_eq, List.flatMap_append]
    rfl
  have hclose : foldInside '\uff02' = (['"'], .outside) := rfl
  have hle := countP_foldGlyphsFrom_le isWideQuote_of_lt .outside (escapedContents behind ++ ['"'])
  rw [List.countP_append, countP_escapedContents rfl] at hle
  rw [toList_stringLiteral, foldGlyphs_quote, hcontents, hsplit, List.append_assoc,
    foldGlyphsFrom_escapedContents hfront, List.cons_append, foldGlyphsFrom_inside, hclose]
  have hquote : ['"'].countP isWideQuote = 0 := rfl
  rw [List.countP_cons_of_neg (by decide), List.countP_append, countP_escapedContents rfl,
    List.countP_append, List.countP_append, List.countP_cons_of_pos (a := '\uff02') rfl]
  dsimp only
  omega

/-- The literal does not read as the string. -/
theorem prepare_stringLiteral_ne {operand : String} (h : '\uff02' ∈ stringContents operand.toList)
    (span : Span) : prepare (stringLiteral operand) ≠
      .ok (.string span (String.ofList (stringContents operand.toList))) := by
  intro hread
  obtain ⟨text, hchecked, hparse, -⟩ := prepare_eq_ok_iff.mp hread
  have hnormal := (checkedText_eq_ok_iff.mp hchecked).1
  have hcontents := (sublist_of_parseExpr_string hparse).countP_le (p := isWideQuote)
  rw [String.toList_ofList, countP_of_normalizeText isWideQuote_of_isBlank (by decide) hnormal]
    at hcontents
  exact absurd (countP_foldGlyphs_stringLiteral h) (Nat.not_lt.mpr hcontents)

/-! ## The form of a string -/

/-- The form that holds a string operand and nothing else. -/
def stringForm (s : String) : Form :=
  [("left_operand_0", s), ("left_type_0", "string")]

section

variable {s : String} {functions : List FunctionSignature}

theorem operand?_stringForm (hfilled : trim s ≠ "") :
    (stringForm s).operand? .left 0 = some (trim s) := by
  have hget : (stringForm s).operand? .left 0 =
      (some (trim s)).filter fun text => !text.isEmpty := rfl
  rw [hget, Option.filter_some, if_pos (by simpa using hfilled)]

theorem operandCount_stringForm (hfilled : trim s ≠ "") :
    (stringForm s).operandCount .left = 1 := by
  have hnext : (stringForm s).operand? .left 1 = none := rfl
  have hrange : List.range (stringForm s).length = [0, 1] := rfl
  rw [Form.operandCount, hrange,
    List.takeWhile_cons_of_pos (by rw [operand?_stringForm hfilled]; rfl),
    List.takeWhile_cons_of_neg (by rw [hnext]; decide)]
  rfl

theorem isReserved_trim (word : String) : isReserved (trim word) = isReserved word := by
  rw [isReserved, isReserved, trim, String.toList_ofList, trimChars_trimChars]

/-- A text that is no reserved word is entered as the literal of it. -/
theorem enteredSlots_stringForm (hfilled : trim s ≠ "") (hfree : isReserved s = false) :
    (stringForm s).enteredSlots functions .output = pure [stringLiteral (trim s)] := by
  have htype : (stringForm s).operandField? .left .type 0 = some "string" := rfl
  have hfunction : (stringForm s).operandField? .left .function 0 = none := rfl
  have hdeclared : OperandType.ofName? "string" = some .string := rfl
  have hreserved : checkReserved (trim s) (OperandType.string == .boolean) = .ok () := by
    rw [checkReserved, isReserved_trim, isReserved_trim, hfree]
    rfl
  have htext : (stringForm s).operandText functions .left 0 =
      pure (stringLiteral (trim s)) := by
    rw [Form.operandText, operand?_stringForm hfilled]
    dsimp only
    rw [htype]
    dsimp only
    rw [hdeclared]
    dsimp only
    rw [Form.operandOfType, hfunction]
    dsimp only
    rw [hreserved]
    rfl
  change (stringForm s).outputItems functions = _
  rw [Form.outputItems, operandCount_stringForm hfilled]
  change (do let text ← (stringForm s).operandText functions .left 0; pure [text]) = _
  rw [htext]
  rfl

end

/-- A string operand that is filled in and no reserved word becomes one slot, which reads as the
string of its contents, exactly when the contents have no full-width quote. -/
theorem stringForm_reads_back {s : String} {functions : List FunctionSignature}
    {contents : List Char} (hfilled : trim s ≠ "") (hfree : isReserved s = false)
    (hcontents : Unquotes (trimChars s.toList) contents) :
    (∃ slot span, (stringForm s).slots functions .output = .ok [slot] ∧
      prepare slot = .ok (.string span (String.ofList contents))) ↔ '\uff02' ∉ contents := by
  have hentered := @enteredSlots_stringForm s functions hfilled hfree
  have hstring : stringContents (trim s).toList = contents := by
    rw [trim, String.toList_ofList, hcontents.stringContents_eq]
  constructor
  · rintro ⟨slot, span, hslots, hread⟩ hwide
    obtain ⟨-, hvalue, -⟩ := Form.slots_eq_ok_iff.mp hslots
    rw [hentered, Checked.value_pure] at hvalue
    obtain rfl : stringLiteral (trim s) = slot := (List.cons.inj hvalue).1
    rw [← hstring] at hwide hread
    exact prepare_stringLiteral_ne hwide span hread
  · intro hnarrow
    rw [← hstring] at hnarrow
    obtain ⟨span, hread⟩ := exists_prepare_stringLiteral hnarrow
    rw [hstring] at hread
    refine ⟨_, span,
      Form.slots_eq_ok_iff.mpr ⟨by rw [hentered]; rfl, by rw [hentered]; rfl, ?_⟩, hread⟩
    refine Statement.slotErrors_eq_nil_iff.mpr ⟨bracketErrors_stringLiteral _, fun slot hslot => ?_⟩
    obtain rfl : slot = 0 := List.mem_singleton.mp hslot
    exact ⟨[_], congrArg (Except.map fun e => [e]) hread⟩

/-- A text between quotes that has a quote, brackets, a backslash and a marker in it. -/
theorem stringForm_reads_back_quoted :
    trim " \"a\"」(\\でない\"" ≠ "" ∧ isReserved " \"a\"」(\\でない\"" = false ∧
      Unquotes (trimChars " \"a\"」(\\でない\"".toList) "a\"」(\\でない".toList ∧
      ∃ slot span, (stringForm " \"a\"」(\\でない\"").slots [] .output = .ok [slot] ∧
        prepare slot = .ok (.string span (String.ofList "a\"」(\\でない".toList)) := by
  have hfilled : trim " \"a\"」(\\でない\"" ≠ "" := by decide +kernel
  have hfree : isReserved " \"a\"」(\\でない\"" = false := by decide +kernel
  have htrim : trimChars " \"a\"」(\\でない\"".toList = '"' :: ("a\"」(\\でない".toList ++ ['"']) := by
    decide +kernel
  have hcontents : Unquotes (trimChars " \"a\"」(\\でない\"".toList) "a\"」(\\でない".toList :=
    htrim ▸ .quotes _
  exact ⟨hfilled, hfree, hcontents, (stringForm_reads_back hfilled hfree hcontents).mpr (by decide)⟩

/-- A full-width quote in the contents ends the literal, and what stands behind it is refused. -/
theorem stringForm_loses_wideQuote :
    trim "a＂b" ≠ "" ∧ isReserved "a＂b" = false ∧
      Unquotes (trimChars "a＂b".toList) "a＂b".toList ∧
      (stringForm "a＂b").slots [] .output =
        .error [⟨.statement, .expression (.unexpected "b" .nothingMore 3)⟩] := by
  have htrim : trimChars "a＂b".toList = "a＂b".toList := by decide
  refine ⟨by decide, by decide, ?_, by decide +kernel⟩
  rw [htrim]
  refine .bare (fun contents h => ?_) fun contents h => ?_
  · exact absurd (List.cons.inj h).1 (by decide)
  · exact absurd (List.cons.inj h).1 (by decide)

end BlockCode
