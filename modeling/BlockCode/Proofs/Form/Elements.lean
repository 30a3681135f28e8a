/- # Elements that read back

A form writes an element of an array as the name of the array with a position in square brackets.
The position has no brackets of its own, so the glyphs, the negations and the tokens in the brackets
are those of the position alone: the element reads where its name reads as a name and its position
reads as one expression. A position is held to its grammar once its glyphs are folded, so a single
name or number in it reads, but a list of positions never does. The last theorem puts the names, the
numbers and the elements together.
-/

import BlockCode.Proofs.Form.ReadBack
import BlockCode.Proofs.Form.Targets
import BlockCode.Proofs.Fragment.Joining

namespace BlockCode

/-! ## Negations in brackets -/

namespace Bare

variable {text : List Char}

theorem isBracket_eq_false (h : Bare text) : ∀ c ∈ text, isBracket c = false := by
  have hexceptions : ∀ c ∈ bracketTokens.map Prod.snd, c ∈ '\uff02' :: plainExceptions := by decide
  intro c hc
  rw [isBracket, ← Bool.not_eq_true, List.contains_iff_mem]
  exact fun hbracket => h c hc (hexceptions c hbracket)

/-- So its tokens are no strings, no brackets and no marks of calls. -/
theorem kind_notMem_exceptions (h : Bare text) {offset : Nat} {tokens : List Token}
    (hlex : lexFrom offset text = .ok tokens) :
    ∀ token ∈ tokens, token.kind ∉ TokenKind.exceptions := by
  intro token htoken hkind
  obtain ⟨c, _, tail, htail, htext⟩ := exists_tokenTail?_of_mem_lexFrom hlex token htoken
  obtain ⟨d, hd, hexception⟩ := exists_mem_plainExceptions htail hkind
  refine h d ((written_of_lexFrom hlex).mem_of_mem htoken ?_) (.tail _ hexception)
  rwa [htext, String.toList_ofList]

/-- Moving a negation brings none of them in. -/
theorem move {moved before operand gap behind : List Char} (h : Bare text)
    (hmoves : NegationMoves text moved before operand gap behind) : Bare moved := by
  rw [Bare, hmoves.text_eq] at h
  rw [Bare, hmoves.moved_eq]
  simp only [List.forall_mem_append, List.forall_mem_cons] at h ⊢
  exact ⟨h.1, by decide, h.2.1, h.2.2.2.2⟩

end Bare

section Brackets

variable {text front rest : List Char}

/-- An operand that is looked for backwards without brackets in it ends at an opening bracket. -/
theorem operandLength?_before_bracket {reversed : List Char}
    (h : ∀ c ∈ reversed, isBracket c = false) (rest : List Char) :
    operandLength? (reversed ++ '[' :: rest) = operandLength? reversed := by
  cases reversed with
  | nil =>
      have hnone : isOperandChar '[' = false := by decide
      simp [operandLength?, hnone]
  | cons last reversed =>
      have hlast := h last (.head _)
      have hround : ¬ (last == ')') = true := by
        intro heq
        rw [eq_of_beq heq] at hlast
        cases hlast
      have hsquare : ¬ (last == ']') = true := by
        intro heq
        rw [eq_of_beq heq] at hlast
        cases hlast
      have hrun : ((last :: reversed) ++ '[' :: rest).takeWhile isOperandChar =
          (last :: reversed).takeWhile isOperandChar :=
        (takeWhile_append_eq (by simp [show isOperandChar '[' = false by decide])).1
      rw [List.cons_append] at hrun ⊢
      simp only [operandLength?, if_neg hround, if_neg hsquare]
      cases isOperandChar last with
      | false => rfl
      | true => simp only [if_true, Option.map_some, List.drop_zero, hrun]

/-- So a negation moves in brackets as it moves without them. -/
theorem negateLast?_in_brackets (h : ∀ c ∈ text, isBracket c = false) :
    negateLast? (front ++ '[' :: text) = (negateLast? text).map (front ++ '[' :: ·) := by
  have hreversed : (front ++ '[' :: text).reverse.dropWhile isBlank =
      text.reverse.dropWhile isBlank ++ '[' :: front.reverse := by
    rw [List.reverse_append, List.reverse_cons, List.append_assoc, List.singleton_append]
    exact (takeWhile_append_eq (by simp [show isBlank '[' = false by decide])).2
  have hfree : ∀ c ∈ text.reverse.dropWhile isBlank, isBracket c = false := fun c hc =>
    h c (List.mem_reverse.mp ((List.dropWhile_sublist _).subset hc))
  rw [negateLast?, hreversed, operandLength?_before_bracket hfree, negateLast?, Option.map_map]
  cases hlength : operandLength? (text.reverse.dropWhile isBlank) with
  | none => rfl
  | some n =>
      have hle := operandLength?_le hlength
      rw [Option.map_some, Option.map_some, List.drop_append_of_le_length hle,
        List.take_append_of_le_length hle]
      simp

/-- Behind a text without markers a text in brackets is rewritten by itself. -/
theorem rewriteNegation_in_brackets (hfront : splitAtMarkerFrom? .outside front = none)
    (houtside : Quotation.outside.past isDoubleQuote front = .outside)
    (htext : Bare text) :
    rewriteNegation (front ++ '[' :: (text ++ [']'])) =
      (rewriteNegation text).map fun rewritten => front ++ '[' :: (rewritten ++ [']']) := by
  have hsplit (rest : List Char) : splitAtMarkerFrom? .outside (front ++ '[' :: rest) =
      (splitAtMarkerFrom? .outside rest).map
        fun found => (front ++ '[' :: found.1, found.2) := by
    rw [splitAtMarkerFrom?_append (breaks_cons.mpr (by decide)) hfront, houtside,
      splitAtMarkerFrom?_cons fun _ => rfl, Option.map_map]
    rfl
  fun_induction rewriteNegation text with
  | case1 text hnone =>
      apply rewriteNegation_eq_self
      have hplace : Quotation.outside.past isDoubleQuote text = .outside :=
        Quotation.past_outside htext.isDoubleQuote_eq_false
      rw [hsplit, splitAtMarkerFrom?_append (breaks_cons.mpr (by decide)) hnone, hplace]
      rfl
  | case2 text before behind hfound hnegated =>
      have hwhole := hsplit (text ++ [']'])
      rw [splitAtMarkerFrom?_append_of_eq_some (breaks_cons.mpr (by decide)) hfound] at hwhole
      obtain rfl := eq_append_of_splitAtMarkerFrom? hfound
      have hfree : Bare before := fun c hc => htext c (by simp [hc])
      rw [rewriteNegation_of_split hwhole, negateLast?_in_brackets hfree.isBracket_eq_false,
        hnegated]
      rfl
  | case3 text before behind hfound negated hnegated ih =>
      have hwhole := hsplit (text ++ [']'])
      rw [splitAtMarkerFrom?_append_of_eq_some (breaks_cons.mpr (by decide)) hfound] at hwhole
      obtain rfl := eq_append_of_splitAtMarkerFrom? hfound
      have hfree : Bare before := fun c hc => htext c (by simp [hc])
      rw [rewriteNegation_of_split hwhole, negateLast?_in_brackets hfree.isBracket_eq_false,
        hnegated]
      obtain ⟨kept, operand, gap, hmoves⟩ := exists_negationMoves hfound hnegated
      rw [← ih (htext.move hmoves)]
      simp

end Brackets

/-! ## Elements of arrays -/

section Tokens

theorem breaks_leftBracket (rest : List Char) : Breaks ('[' :: rest) :=
  breaks_cons.mpr (by decide)

theorem breaks_rightBracket : Breaks [']'] :=
  breaks_cons.mpr (by decide)

/-- A text that is read as a name, with a text in brackets behind it, is read as the tokens of the
two and the brackets. -/
theorem lexFrom_element_iff {front text : List Char} {name : Token} {tokens : List Token}
    (hfront : lexFrom 0 front = .ok [name]) (hname : name.kind = .name)
    (htext : Bare text)
    (hstrings : ∀ token ∈ tokens, token.kind ≠ .unclosedString) :
    lexFrom 0 (front ++ '[' :: (text ++ [']'])) = .ok tokens ↔
      ∃ inner, lexFrom (utf8Length (front ++ ['['])) text = .ok inner ∧
        tokens = name :: .spelled .leftBracket (utf8Length front) ['['] :: (inner ++
          [.spelled .rightBracket (utf8Length (front ++ ['[']) + utf8Length text) [']']]) := by
  have hnames : ∀ token ∈ [name], token.kind ≠ .unclosedString := by
    simp [hname]
  have hopens : LexesBefore (text ++ [']']) 0 (front ++ ['['])
      [name, .spelled .leftBracket (utf8Length front) ['[']] := by
    have hbracket : LexesBefore (text ++ [']']) (0 + utf8Length front) ['[']
        [.spelled .leftBracket (0 + utf8Length front) ['[']] := .single rfl
    have hfirst : LexesBefore (['['] ++ (text ++ [']'])) 0 front [name] :=
      lexesBefore_of_lexFrom (breaks_leftBracket _) hfront hnames
    have hboth := hfirst.append hbracket
    rwa [Nat.zero_add] at hboth
  have hcloses (offset : Nat) : lexFrom offset [']'] =
      .ok [.spelled .rightBracket offset [']']] :=
    (LexesBefore.single rfl).lexFrom_eq_ok
  have hwhole := hopens
  rw [LexesBefore, Nat.zero_add, List.append_assoc, List.singleton_append] at hwhole
  rw [hwhole, map_eq_ok_iff]
  constructor
  · rintro ⟨behind, hbehind, rfl⟩
    rw [List.forall_mem_append] at hstrings
    obtain ⟨inner, last, rfl, hinner, hlast⟩ :=
      exists_append_of_lexFrom breaks_rightBracket (closesFrom_of_forall htext.ne_quote) hbehind
        hstrings.2
    rw [hcloses] at hlast
    cases hlast
    exact ⟨inner, hinner, rfl⟩
  · rintro ⟨inner, hinner, rfl⟩
    have hstrings' : ∀ token ∈ inner, token.kind ≠ .unclosedString := fun token htoken =>
      hstrings token (by simp [htoken])
    have hlexes := lexesBefore_of_lexFrom breaks_rightBracket hinner hstrings'
    refine ⟨_, hlexes.trans (congrArg _ (hcloses _)), rfl⟩

end Tokens

section Elements

variable {text front : List Char} {slot array position : String} {e : Expr}

/-- The text is read as the expression, wherever the parts of that stand. The offset is that of its
first character. -/
def TextReadsLike (offset : Nat) (text : List Char) (e : Expr) : Prop :=
  ∃ tokens e', lexFrom offset text = .ok tokens ∧ Spells tokens e' ∧ checkNames e' = .ok () ∧
    e'.unplaced = e.unplaced

/-- It does not matter where the text stands. -/
theorem TextReadsLike.move {offset : Nat} (h : TextReadsLike offset text e) (offset' : Nat) :
    TextReadsLike offset' text e := by
  obtain ⟨tokens, e', hlex, hspells, hnames, hsame⟩ := h
  obtain ⟨tokens', hlex', hwords⟩ := exists_lexFrom_eq hlex offset'
  obtain ⟨moved, hmoved, hsame'⟩ := Derives.movesTo hspells hwords
  refine ⟨tokens', moved, hlex', hmoved, ?_, hsame'.trans hsame⟩
  rw [← checkNames_unplaced, hsame', checkNames_unplaced, hnames]

/-- A slot without parentheses reads as what its rewritten text is read as. -/
theorem readsLike_iff_of_notMem (hparens : ∀ c ∈ ['(', ')'], c ∉ foldGlyphs slot.toList) :
    ReadsLike slot e ↔ ∃ rewritten, rewriteNegation (foldGlyphs slot.toList) = .ok rewritten ∧
      TextReadsLike 0 rewritten e := by
  constructor
  · rintro ⟨e', hread, hsame⟩
    obtain ⟨text, hnormal, hparse, hnames⟩ := (prepare_eq_ok_iff_of_notMem hparens).mp hread
    obtain ⟨tokens, hlex, hspells⟩ := exists_spells_of_parseExpr hparse
    exact ⟨text.toList, normalizeText_eq_ok_iff.mp hnormal, tokens, e', hlex, hspells, hnames,
      hsame⟩
  · rintro ⟨rewritten, hrewrite, tokens, e', hlex, hspells, hnames, hsame⟩
    refine ⟨e', (prepare_eq_ok_iff_of_notMem hparens).mpr ⟨String.ofList rewritten, ?_, ?_, hnames⟩,
      hsame⟩
    · rw [normalizeText_eq_ok_iff, String.toList_ofList, hrewrite]
    · rw [parseExpr, lexExpr, lex, String.toList_ofList, hlex]
      exact parseTokens_eq_ok_iff.mpr (reads_parseAbove_lowest_iff_spells.mpr hspells)

/-- A name with a text in brackets behind it is read as an element at the position that the text is
read as. -/
theorem textReadsLike_element_iff {name : Token} (hfront : lexFrom 0 front = .ok [name])
    (hname : name.kind = .name) (hfree : reservedSegment? name.text = none)
    (htext : Bare text) :
    TextReadsLike 0 (front ++ '[' :: (text ++ [']'])) (.index default (.name default name.text) e) ↔
      TextReadsLike 0 text e := by
  have hinner {tokens : List Token} {offset : Nat} (h : lexFrom offset text = .ok tokens) :
      ∀ token ∈ tokens, token.kind ≠ .rightBracket :=
    fun token htoken hkind => htext.kind_notMem_exceptions h token htoken (hkind ▸ by decide)
  constructor
  · rintro ⟨tokens, e', hlex, hspells, hnames, hsame⟩
    obtain ⟨inner, hlex', rfl⟩ :=
      (lexFrom_element_iff hfront hname htext hspells.ne_unclosedString).mp hlex
    obtain ⟨position, hposition, rfl⟩ := hspells.exists_position hname rfl (hinner hlex')
    have hread : TextReadsLike (utf8Length (front ++ ['['])) text e :=
      ⟨inner, position, hlex', hposition, (checkNames_index_iff.mp hnames).2,
        (Expr.index.inj hsame).2.2⟩
    exact hread.move 0
  · intro h
    obtain ⟨inner, position, hlex, hposition, hnames, hsame⟩ := h.move (utf8Length (front ++ ['[']))
    let opening := Token.spelled .leftBracket (utf8Length front) ['[']
    let closing := Token.spelled .rightBracket (utf8Length (front ++ ['[']) + utf8Length text) [']']
    have hspells : Spells (name :: opening :: (inner ++ [closing]))
        (.index ⟨name.span.start, closing.span.stop⟩ (.name name.span name.text) position) :=
      (Derives.name hname (.position rfl hposition rfl .noPosition)).of_le (by decide) (by decide)
    refine ⟨_, _, (lexFrom_element_iff hfront hname htext hspells.ne_unclosedString).mpr
      ⟨inner, hlex, rfl⟩, hspells, checkNames_index_iff.mpr ⟨checkNames_name_eq_ok hfree _, hnames⟩,
      ?_⟩
    rw [Expr.unplaced, Expr.unplaced, hsame]
    rfl

/-- The glyphs of an element are folded in its name and its position. -/
theorem foldGlyphs_element (harray : PlainText array.toList)
    (hposition : Bare (foldGlyphs position.toList)) :
    foldGlyphs (array ++ "[" ++ position ++ "]").toList =
      foldGlyphs array.toList ++ '[' :: (foldGlyphs position.toList ++ [']']) := by
  have hopens (rest : List Char) : foldGlyphsFrom .outside ('[' :: rest) =
      '[' :: foldGlyphsFrom .outside rest :=
    @foldGlyphs_append_of_forall ['['] (by decide) rest
  have hcloses : foldGlyphsFrom .outside [']'] = [']'] :=
    (@foldGlyphs_append_of_forall [']'] (by decide) []).trans (congrArg (']' :: ·) foldGlyphs_nil)
  have htext : (array ++ "[" ++ position ++ "]").toList =
      array.toList ++ '[' :: (position.toList ++ [']']) := by
    simp
  rw [htext, foldGlyphs, foldGlyphsFrom_past (by simp; decide), Quotation.past_outside fun c hc =>
    isQuote_of_isPlainChar (harray c hc), hopens,
    foldGlyphsFrom_append breaks_rightBracket (closesFrom_of_forall hposition.ne_quote),
    hcloses]
  rfl

/-- Folding leaves nothing in a position but names, numbers and what stands between them. -/
theorem bare_of_isPositionText (h : isPositionText position = true) :
    Bare (foldGlyphs position.toList) := by
  have hbare := (plainText_of_isPositionText h).bare
  rwa [foldGlyphsText, String.toList_ofList, foldGlyphs, foldGlyphs, foldGlyphsFrom_foldGlyphsFrom]
    at hbare

/-- Brackets behind a text that is folded to a name make an element of that name, at the position
that is read in them. -/
theorem FoldsToFreeName.readsLike_element_iff {word : String} (hname : FoldsToFreeName array word)
    (harray : PlainText array.toList) (hposition : Bare (foldGlyphs position.toList)) :
    ReadsLike (array ++ "[" ++ position ++ "]") (.index default (.name default word) e) ↔
      ReadsLike position e := by
  obtain ⟨tokens, hlex, hwords⟩ := map_eq_ok_iff.mp hname.folds
  obtain ⟨name, rfl, hword⟩ := List.map_eq_singleton_iff.mp hwords
  obtain ⟨hkind, rfl⟩ := Prod.mk.inj hword
  rw [lex, foldGlyphsText, String.toList_ofList] at hlex
  have hfolded := foldGlyphs_element harray hposition
  have hparens : ∀ c ∈ ['(', ')'], c ∉ foldGlyphs (array ++ "[" ++ position ++ "]").toList := by
    have hbrackets : ∀ c ∈ ['(', ')'], c ≠ '[' ∧ c ≠ ']' := by decide
    intro c hc
    rw [hfolded]
    simp only [List.mem_append, List.mem_cons, List.not_mem_nil, or_false, not_or]
    exact ⟨harray.bare.parens_notMem c hc, (hbrackets c hc).1, hposition.parens_notMem c hc,
      (hbrackets c hc).2⟩
  rw [readsLike_iff_of_notMem hparens, readsLike_iff_of_notMem hposition.parens_notMem, hfolded,
    rewriteNegation_in_brackets hname.unnegated
      (Quotation.past_outside harray.bare.isDoubleQuote_eq_false) hposition]
  have helement {rewritten : List Char}
      (h : rewriteNegation (foldGlyphs position.toList) = .ok rewritten) :=
    textReadsLike_element_iff (e := e) hlex hkind hname.free
      (rewriteNegation_preserves (fun hmoves hbare => hbare.move hmoves) h hposition)
  constructor
  · rintro ⟨whole, hwhole, hread⟩
    obtain ⟨rewritten, hrewrite, rfl⟩ := map_eq_ok_iff.mp hwhole
    exact ⟨rewritten, hrewrite, (helement hrewrite).mp hread⟩
  · rintro ⟨rewritten, hrewrite, hread⟩
    exact ⟨_, map_eq_ok_iff.mpr ⟨rewritten, hrewrite, rfl⟩, (helement hrewrite).mpr hread⟩

/-- A text with brackets behind it reads as an element of a name exactly where it reads as that
name, and at the position that the text in the brackets reads as. -/
theorem readsLike_element_iff {word : String} (harray : PlainText array.toList)
    (hposition : Bare (foldGlyphs position.toList)) :
    ReadsLike (array ++ "[" ++ position ++ "]") (.index default (.name default word) e) ↔
      ReadsAs array word ∧ ReadsLike position e := by
  rw [readsAs_iff_foldsToFreeName harray.bare]
  constructor
  · rintro ⟨e', hread, hsame⟩
    have hword : e'.assignableName? = some word := by
      rw [← Expr.assignableName?_unplaced, hsame]
      rfl
    have hbracket : ∀ c ∈ ('[' :: (foldGlyphs position.toList ++ [']'])).head?, c = '[' := by simp
    have hquote : '"' ∉ '[' :: (foldGlyphs position.toList ++ [']']) := by
      simp [hposition.notMem (c := '"') (by decide)]
    have hname := foldsToFreeName_of_prepare harray.bare hbracket hquote
      (foldGlyphs_element harray hposition) hread hword
    exact ⟨hname, (hname.readsLike_element_iff harray hposition).mp ⟨e', hread, hsame⟩⟩
  · rintro ⟨hname, hinner⟩
    exact (hname.readsLike_element_iff harray hposition).mpr hinner

end Elements

/-! ## Positions -/

/-- A phrase without parentheses has no commas. -/
def Phrase.Commaless : Phrase → List Token → Prop
  | .arguments .., _ => False
  | .items .., _ => True
  | .expr .., ws | .operators .., ws | .positions .., ws => ∀ token ∈ ws, token.kind ≠ .comma

/-- Commas stand between arguments only, and arguments stand in parentheses. -/
theorem Derives.commaless {phrase : Phrase} {ws : List Token} (h : Derives phrase ws)
    (hparens : ∀ token ∈ ws, token.kind ≠ .leftParen) : phrase.Commaless ws := by
  induction h with
  | noOperator | noPosition => exact List.forall_mem_nil _
  | chain _ _ _ ihfirst ihrest =>
      rw [List.forall_mem_append] at hparens
      exact List.forall_mem_append.mpr ⟨ihfirst hparens.1, ihrest hparens.2⟩
  | operator _ htoken _ _ ihright ihrest =>
      rw [List.forall_mem_cons, List.forall_mem_append] at hparens
      exact List.forall_mem_cons.mpr ⟨(ne_comma_of_operator? htoken).1,
        List.forall_mem_append.mpr ⟨ihright hparens.2.1, ihrest hparens.2.2⟩⟩
  | negate htoken _ ih | not htoken _ ih | name htoken _ ih =>
      rw [List.forall_mem_cons] at hparens
      exact List.forall_mem_cons.mpr ⟨by simp [htoken], ih hparens.2⟩
  | unsigned _ ih | unraised _ ih => exact ih hparens
  | raised _ htoken _ ihbase ihexponent =>
      rw [List.forall_mem_append, List.forall_mem_cons] at hparens
      exact List.forall_mem_append.mpr ⟨ihbase hparens.1,
        List.forall_mem_cons.mpr ⟨by simp [htoken], ihexponent hparens.2.2⟩⟩
  | number htoken | string htoken | trueWord htoken | falseWord htoken =>
      exact List.forall_mem_singleton.mpr (by simp [htoken])
  | group htoken | noArgument htoken | arguments htoken =>
      exact absurd htoken (hparens _ (.head _))
  | userCall _ _ _ ih =>
      rw [List.forall_mem_cons, List.forall_mem_cons] at hparens
      exact (ih hparens.2.2).elim
  | call _ _ _ _ ih | builtin _ _ _ _ _ ih =>
      rw [List.forall_mem_cons, List.forall_mem_append] at hparens
      exact (ih hparens.2.1).elim
  | position hopening _ hclosing _ ihindex ihrest =>
      rw [List.forall_mem_cons, List.forall_mem_append, List.forall_mem_cons] at hparens
      exact List.forall_mem_cons.mpr ⟨by simp [hopening], List.forall_mem_append.mpr
        ⟨ihindex hparens.2.1, List.forall_mem_cons.mpr ⟨by simp [hclosing], ihrest hparens.2.2.2⟩⟩⟩
  | lastItem | nextItem => trivial

section Positions

variable {text : List Char} {slot position : String} {e : Expr}

/-- Folding the glyphs beforehand changes nothing. -/
theorem prepare_foldGlyphsText (slot : String) : prepare (foldGlyphsText slot) = prepare slot := by
  have hsame : normalizeText (foldGlyphsText slot) = normalizeText slot := by
    rw [normalizeText, normalizeText, foldGlyphsText, String.toList_ofList, foldGlyphs, foldGlyphs,
      foldGlyphsFrom_foldGlyphsFrom]
  rw [prepare, prepare, checkedText, checkedText, hsame]

/-- A bare text that is read as one expression has no comma. -/
theorem comma_notMem_of_spells {offset : Nat} {tokens : List Token} (htext : Bare text)
    (hlex : lexFrom offset text = .ok tokens) (hspells : Spells tokens e) : ',' ∉ text := by
  have hkinds := htext.kind_notMem_exceptions hlex
  have hcommaless : ∀ token ∈ tokens, token.kind ≠ .comma :=
    Derives.commaless hspells fun token htoken hkind => hkinds token htoken (hkind ▸ by decide)
  rw [← List.count_eq_zero, (written_of_lexFrom hlex).count_comma, Token.commasOfAll,
    List.sum_eq_zero_iff_forall_eq_nat, List.forall_mem_map]
  intro token htoken
  exact (separates_of_mem_lexFrom hlex token htoken).other (hcommaless token htoken)
    (fun hkind => hkinds token htoken (hkind ▸ by decide))
    (fun hkind => hkinds token htoken (hkind ▸ by decide))

/-- Where folding leaves a text as it is, it leaves each of its characters. -/
theorem KeptFrom.forall_mem (h : KeptFrom .outside text) (hquotes : ∀ c ∈ text, isQuote c = false) :
    ∀ c ∈ text, (foldOutside c).1 = [c] := by
  induction text with
  | nil => exact List.forall_mem_nil _
  | cons c text ih =>
      rw [List.forall_mem_cons] at hquotes
      obtain ⟨hkeeps, hrest⟩ := h
      rw [Quotation.next, hquotes.1] at hrest
      exact List.forall_mem_cons.mpr ⟨hkeeps, ih hrest hquotes.2⟩

/-- A position that is a name stays whole once its glyphs are folded, unless a marker stands in
it. -/
theorem staysWhole_of_unnegated (hname : isVariableName (foldGlyphsText position) = true)
    (h : Unnegated position) : StaysWhole (trim (foldGlyphsText position)) := by
  obtain ⟨first, rest, hcons, -, hchars⟩ := exists_word_of_isVariableName hname
  have hplain := plainText_of_isVariableName hname
  have htrim : (trim (foldGlyphsText position)).toList =
      trimChars (foldGlyphs position.toList) := by
    rw [trim, foldGlyphsText, String.toList_ofList, String.toList_ofList]
  rw [foldGlyphsText, String.toList_ofList] at hcons hplain
  rw [← hcons] at hchars
  have hquotes : ∀ c ∈ foldGlyphs position.toList, isQuote c = false := fun c hc =>
    isQuote_of_isPlainChar (hplain c hc)
  obtain ⟨before, behind, htext, -⟩ := exists_eq_append_trimChars (foldGlyphs position.toList)
  have hinside : trimChars (foldGlyphs position.toList) <:+: foldGlyphs position.toList :=
    ⟨before, behind, htext.symm⟩
  have hkept := (keptFrom_foldGlyphsFrom .outside position.toList).forall_mem hquotes
  have hwidth : ∀ c ∈ trimChars (foldGlyphs position.toList), foldWidth c = c := by
    intro c hc
    have hsame := hkept c (hinside.subset hc)
    rw [foldOutside_of_isNamePart (hchars c hc)] at hsame
    exact List.singleton_inj.mp hsame
  rw [isVariableName, Bool.and_eq_true, Bool.not_eq_true', isReserved] at hname
  refine ⟨fun connective hconnective hfound => ?_, fun hfound => ?_, ?_⟩
  · rw [htrim] at hfound
    exact not_connectsFrom_foldGlyphsFrom .outside position.toList
      ((connectsFrom_iff hquotes).mpr ⟨connective, hconnective, hfound.trans hinside⟩)
  · rw [htrim] at hfound
    have hdouble : ∀ c ∈ foldGlyphs position.toList, isDoubleQuote c = false := fun c hc =>
      isDoubleQuote_eq_false (hquotes c hc)
    exact (splitAtMarkerFrom?_eq_none_iff hdouble).mp h (hfound.trans hinside)
  · rw [narrow, htrim, List.map_congr_left (g := id) hwidth, List.map_id, isReserved,
      String.toList_ofList, trimChars_trimChars]
    rw [foldGlyphsText, String.toList_ofList] at hname
    exact hname.2

/-- A position without markers reads exactly where it is no list and the white space in it is read
over. -/
theorem exists_readsLike_position_iff (hposition : isPositionText position = true)
    (h : Unnegated position) : (∃ e, ReadsLike position e) ↔
      ',' ∉ foldGlyphs position.toList ∧ Spaced (foldGlyphs position.toList) := by
  have hplain := plainText_of_isPositionText hposition
  have hfolded : (foldGlyphsText position).toList = foldGlyphs position.toList :=
    String.toList_ofList
  have hmarker : Unnegated (foldGlyphsText position) := by
    rwa [Unnegated, hfolded, foldGlyphs, foldGlyphs, foldGlyphsFrom_foldGlyphsFrom]
  rw [← hfolded]
  constructor
  · rintro ⟨e, e', hread, -⟩
    rw [← prepare_foldGlyphsText] at hread
    refine ⟨?_, spaced_of_prepare hplain hmarker hread⟩
    obtain ⟨text, hchecked, hparse, -⟩ := prepare_eq_ok_iff.mp hread
    obtain rfl := hmarker.eq_of_checkedText hchecked
    obtain ⟨tokens, hlex, hspells⟩ := exists_spells_of_parseExpr hparse
    rw [foldGlyphsText_idempotent] at hlex
    exact comma_notMem_of_spells (hfolded ▸ bare_of_isPositionText hposition) hlex hspells
  · rintro ⟨hcomma, hspaced⟩
    have hitem := hposition
    rw [isPositionText, stringPiecesAt, piecesAt_eq_singleton hcomma, List.map_singleton,
      String.ofList_toList, List.all_cons, List.all_nil, Bool.and_true, Bool.or_eq_true] at hitem
    have hread {e : Expr} (h : ReadsLike (foldGlyphsText position) e) :
        ∃ e, ReadsLike position e := by
      rw [ReadsLike, prepare_foldGlyphsText] at h
      exact ⟨e, h⟩
    rcases hitem with hname | hnumber
    · have hwhole := staysWhole_of_unnegated hname h
      obtain ⟨span, hprepare⟩ := (readsAs_iff hname).mpr ⟨rfl, hwhole, hspaced⟩
      exact hread ⟨_, hprepare, rfl⟩
    · exact hread ((readsLike_signedNumber_iff hnumber).mpr hspaced)

end Positions

/-- Folding makes no white space but blanks, and inside of strings none. -/
theorem eq_or_isTokenGap_of_mem_foldOutside {c d : Char} (hd : d ∈ (foldOutside c).1)
    (hblank : isBlank d = true) : d = c ∨ isTokenGap d = true := by
  rw [foldOutside] at hd
  split at hd
  · rw [List.mem_singleton.mp hd] at hblank
    cases hblank
  · split at hd
    · next replacement hglyph =>
      have hreplacements : ∀ entry ∈ operatorGlyphs,
          ∀ d ∈ entry.2.toList, isBlank d = true → isTokenGap d = true := by
        decide
      exact .inr (hreplacements _ (mem_operatorGlyphs hglyph) d hd hblank)
    · split at hd
      · exact .inl (List.mem_singleton.mp hd)
      · obtain rfl := List.mem_singleton.mp hd
        exact .inl (eq_of_foldWidth_eq rfl (code_of_isBlank hblank)).symm

theorem eq_of_mem_foldInside {c d : Char} (hd : d ∈ (foldInside c).1) (hblank : isBlank d = true) :
    d = c := by
  rw [foldInside] at hd
  split at hd
  · exact List.mem_singleton.mp hd
  · split at hd
    · rw [List.mem_singleton.mp hd] at hblank
      cases hblank
    · exact List.mem_singleton.mp hd

/-- White space that is read over is still read over when the text is folded. -/
theorem Spaced.foldGlyphsFrom {place : Quotation} (h : Spaced text) :
    Spaced (foldGlyphsFrom place text) := by
  fun_induction BlockCode.foldGlyphsFrom place text with
  | case1 => exact h
  | case2 c text ih =>
      obtain ⟨hc, htext⟩ := List.forall_mem_cons.mp h
      exact List.forall_mem_cons.mpr ⟨hc, ih htext⟩
  | case3 c text folded next hfolded ih =>
      obtain ⟨hc, htext⟩ := List.forall_mem_cons.mp h
      refine List.forall_mem_append.mpr ⟨fun d hd hblank => ?_, ih htext⟩
      obtain rfl : d = c := eq_of_mem_foldInside (by rwa [hfolded]) hblank
      exact hc hblank
  | case4 c text symbol beyond hconnective ih =>
      have hsymbol : ∀ d ∈ symbol, isBlank d = true → isTokenGap d = true := by
        rcases mem_of_connective? hconnective with rfl | rfl <;> decide
      have hrest := ih fun d hd => h d (.tail _ (List.mem_of_mem_drop hd))
      exact List.forall_mem_append.mpr ⟨fun d hd hblank => .inl (hsymbol d hd hblank), hrest⟩
  | case5 c text hconnective folded next hfolded ih =>
      obtain ⟨hc, htext⟩ := List.forall_mem_cons.mp h
      refine List.forall_mem_append.mpr ⟨fun d hd hblank => ?_, ih htext⟩
      have hd' : d ∈ (foldOutside c).1 := by rwa [hfolded]
      rcases eq_or_isTokenGap_of_mem_foldOutside hd' hblank with rfl | hgap
      · exact hc hblank
      · exact .inl hgap

/-! ## All fields -/

/-- What a field that passes its grammar reads as, if the white space around it is read over: a name
that stays whole reads as its half-width spelling, and a number as that number. Behind such a name a
position in brackets makes an element at what the position reads as, and a position reads unless a
marker moves in it or it is a list. -/
theorem fields_read_back (slot position : String) :
    (isVariableName slot = true → StaysWhole (trim slot) → Spaced slot.toList →
      ReadsAs slot (narrow (trim slot))) ∧
    (isNumberText slot = true → Spaced slot.toList →
      ReadsLike slot (signedNumber (trimChars slot.toList))) ∧
    (isVariableName slot = true → StaysWhole (trim slot) → Spaced slot.toList →
      isPositionText position = true →
      (∀ e, ReadsLike position e → ReadsLike (slot ++ "[" ++ position ++ "]")
        (.index default (.name default (narrow (trim slot))) e)) ∧
      (Unnegated position → ',' ∉ foldGlyphs position.toList → Spaced position.toList →
        ∃ e, ReadsLike position e)) := by
  have hreads (hslot : isVariableName slot = true) (hwhole : StaysWhole (trim slot))
      (hspaced : Spaced slot.toList) : ReadsAs slot (narrow (trim slot)) :=
    (readsAs_iff hslot).mpr ⟨rfl, hwhole, hspaced⟩
  refine ⟨hreads, fun hslot => (readsLike_signedNumber_iff hslot).mpr,
    fun hslot hwhole hspaced hposition => ⟨fun e he => ?_, fun hmarker hcomma hblanks => ?_⟩⟩
  · exact (readsLike_element_iff (plainText_of_isVariableName hslot)
      (bare_of_isPositionText hposition)).mpr ⟨hreads hslot hwhole hspaced, he⟩
  · exact (exists_readsLike_position_iff hposition hmarker).mpr ⟨hcomma, hblanks.foldGlyphsFrom⟩

/-- A name in full width, a number with a sign, and an element with white space around its name. -/
theorem fields_read_back_totals :
    ReadsAs "ｘ1\u3000" "x1" ∧
      ReadsLike " -0.5" (.unary default .negate (.number default "0.5")) ∧
        ∃ e, ReadsLike "合計\u3000[ｊ]" (.index default (.name default "合計") e) := by
  obtain ⟨hname, -⟩ := fields_read_back "ｘ1\u3000" "ｊ"
  obtain ⟨-, hnumber, -⟩ := fields_read_back " -0.5" "ｊ"
  obtain ⟨-, -, helement⟩ := fields_read_back "合計\u3000" "ｊ"
  have hnarrow : narrow (trim "ｘ1\u3000") = "x1" := by decide +kernel
  have htotal : narrow (trim "合計\u3000") = "合計" := by decide +kernel
  rw [hnarrow] at hname
  rw [htotal] at helement
  obtain ⟨helement, hposition⟩ := helement (by decide +kernel) (by decide +kernel)
    (by decide +kernel) (by decide +kernel)
  obtain ⟨e, hinner⟩ := hposition (by decide +kernel) (by decide +kernel) (by decide +kernel)
  exact ⟨hname (by decide +kernel) (by decide +kernel) (by decide +kernel),
    hnumber (by decide +kernel) (by decide +kernel), e, helement e hinner⟩

/-- A name in full width does not read as it is typed, and a list is a position that no element
reads with. -/
theorem fields_read_otherwise :
    (isVariableName "ｘ" = true ∧ trim "ｘ" = "ｘ" ∧ prepare "ｘ" = .ok (.name ⟨0, 1⟩ "x")) ∧
    (isVariableName "x" = true ∧ isPositionText "1,2" = true ∧
      prepare "x[1,2]" = .error (.unexpected "," (.token .rightBracket) 3)) := by
  refine ⟨⟨by decide +kernel, by decide +kernel, ?_⟩, by decide +kernel, by decide +kernel, ?_⟩
  all_goals with_unfolding_all rfl

end BlockCode
