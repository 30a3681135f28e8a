/- # Fields that read back

A field is held to its grammar as it was typed, white space around it apart. When it is read as a
slot, glyphs are folded and negations moved first, and what the lexer skips is less than what the
field was trimmed of. Folding gives a name its half-width letters and digits. So a name reads as
that spelling of it, where no connective and no marker stands in it and the spelling is not
reserved; a number reads as it is. Both hold as long as the white space around them is such as the
lexer skips.
-/

import BlockCode.Proofs.Check.Calls
import BlockCode.Proofs.Expr.Operands
import BlockCode.Proofs.Expr.Places
import BlockCode.Proofs.Form.Pieces
import BlockCode.Proofs.Fragment.Stability
import BlockCode.Proofs.Names.Resolving

namespace BlockCode

/-! ## What a slot reads as -/

/-- The slot reads as the expression, wherever the parts of that stand. -/
def ReadsLike (slot : String) (e : Expr) : Prop :=
  ∃ e', prepare slot = .ok e' ∧ e'.unplaced = e.unplaced

/-- Each white space that stands in the text is read over: the lexer skips it, or folding makes a
blank of it. -/
def Spaced (text : List Char) : Prop :=
  ∀ c ∈ text, isBlank c = true → isTokenGap c = true ∨ c = '\u3000'

instance (text : List Char) : Decidable (Spaced text) :=
  inferInstanceAs (Decidable (∀ c ∈ text, _ → _))

/-- The text with its full-width forms in half width. -/
def narrow (text : String) : String :=
  String.ofList (text.toList.map foldWidth)

/-- The word is one name once it is folded: no connective and no marker stands in it, and no target
reserves its half-width spelling. -/
structure StaysWhole (word : String) : Prop where
  unconnected : ∀ connective ∈ ["かつ".toList, "または".toList], ¬ connective <:+: word.toList
  unmarked : ¬ negationMarker <:+: word.toList
  free : isReserved (narrow word) = false

instance (word : String) : Decidable (StaysWhole word) :=
  decidable_of_iff
    ((∀ connective ∈ ["かつ".toList, "または".toList], ¬ connective <:+: word.toList) ∧
      ¬ negationMarker <:+: word.toList ∧ isReserved (narrow word) = false)
    ⟨fun h => ⟨h.1, h.2.1, h.2.2⟩, fun h => ⟨h.1, h.2, h.3⟩⟩

theorem isTokenGap_foldedChar {c : Char} (h : isTokenGap c = true ∨ c = '\u3000') :
    isTokenGap (foldedChar c) = true := by
  rcases h with hgap | rfl
  · have hne : c ≠ '\u3000' := by
      rintro rfl
      cases hgap
    rwa [foldedChar, if_neg hne, foldWidth_of_isBlank (isBlank_of_isTokenGap hgap)]
  · rfl

/-- White space of a spaced text is folded to what the lexer skips. -/
theorem Spaced.forall_foldedChar {text gap : List Char} (h : Spaced text)
    (hgap : ∀ c ∈ gap, isBlank c = true) (hin : ∀ c ∈ gap, c ∈ text) :
    ∀ c ∈ gap.map foldedChar, isTokenGap c = true :=
  List.forall_mem_map.mpr fun c hc => isTokenGap_foldedChar (h c (hin c hc) (hgap c hc))

theorem of_isTokenGap_foldedChar {c : Char} (hblank : isBlank c = true)
    (h : isTokenGap (foldedChar c) = true) : isTokenGap c = true ∨ c = '\u3000' := by
  by_cases hc : c = '\u3000'
  · exact .inr hc
  · rw [foldedChar, if_neg hc, foldWidth_of_isBlank hblank] at h
    exact .inl h

/-! ## Words inside of texts -/

section Words

variable {word text : List Char}

/-- A word does not stand in what has none of its characters. -/
theorem infix_of_append_left {front : List Char} (hword : word ≠ [])
    (hfront : ∀ c ∈ front, c ∉ word) (h : word <:+: front ++ text) : word <:+: text := by
  induction front with
  | nil => exact h
  | cons c front ih =>
      rw [List.forall_mem_cons] at hfront
      rw [List.cons_append, List.infix_cons_iff] at h
      rcases h with hstarts | hinside
      · obtain ⟨w, rest, rfl⟩ := List.exists_cons_of_ne_nil hword
        exact absurd (List.cons_prefix_cons.mp hstarts).1 fun heq => hfront.1 (heq ▸ .head _)
      · exact ih hfront.2 hinside

theorem infix_enclosed_iff {before behind : List Char} (hword : word ≠ [])
    (hbefore : ∀ c ∈ before, c ∉ word) (hbehind : ∀ c ∈ behind, c ∉ word) :
    word <:+: before ++ text ++ behind ↔ word <:+: text := by
  constructor
  · intro h
    rw [List.append_assoc] at h
    have hrest := List.reverse_infix.mpr (infix_of_append_left hword hbefore h)
    rw [List.reverse_append] at hrest
    refine List.reverse_infix.mp (infix_of_append_left (by simpa using hword) ?_ hrest)
    simpa using hbehind
  · rintro ⟨front, rest, rfl⟩
    exact ⟨before ++ front, rest ++ behind, by simp⟩

/-- Outside of strings a marker is found exactly where it stands in the text. -/
theorem splitAtMarkerFrom?_eq_none_iff (hquotes : ∀ c ∈ text, isDoubleQuote c = false) :
    splitAtMarkerFrom? .outside text = none ↔ ¬ negationMarker <:+: text := by
  induction text with
  | nil => exact iff_of_true rfl (by decide)
  | cons c text ih =>
      rw [List.forall_mem_cons] at hquotes
      have hplace : Quotation.outside.after c = .outside := by
        rw [← Quotation.next_isDoubleQuote, Quotation.next, hquotes.1]
        rfl
      rw [splitAtMarkerFrom?_cons_eq_none_iff, hplace, ih hquotes.2, List.infix_cons_iff, not_or,
        ← startsWithWord_iff, startsWithWord, Option.not_isSome_iff_eq_none]
      exact and_congr_left fun _ => ⟨fun h => h rfl, fun h _ => h⟩

/-- So is a connective. -/
theorem connectsFrom_iff (hquotes : ∀ c ∈ text, isQuote c = false) :
    ConnectsFrom .outside text ↔
      ∃ connective ∈ ["かつ".toList, "または".toList], connective <:+: text := by
  induction text with
  | nil =>
      refine iff_of_false not_connectsFrom_nil ?_
      decide
  | cons c text ih =>
      rw [List.forall_mem_cons] at hquotes
      have hplace : Quotation.outside.next isQuote c = .outside := by
        rw [Quotation.next, hquotes.1]
        rfl
      have hfirst : (connective? (c :: text)).isSome = true ↔
          ∃ connective ∈ ["かつ".toList, "または".toList], connective <+: c :: text := by
        simp only [connective?, connectives, Option.isSome_map, List.find?_isSome,
          startsWithWord_iff, List.exists_mem_cons_iff]
        simp
      rw [connectsFrom_cons, hplace, ih hquotes.2, hfirst, eq_self, true_and, ← exists_or]
      simp only [List.infix_cons_iff, ← and_or_left]

end Words

/-! ## Folding around a word -/

section Folding

variable {text : List Char}

theorem connective?_blank {c : Char} (h : isBlank c = true) : connective? (c :: text) = none := by
  rw [Option.eq_none_iff_forall_ne_some]
  rintro ⟨symbol, beyond⟩ hsome
  have hletters : ∀ d ∈ ['か', 'ま'], isBlank d = false := by decide
  rw [hletters c (mem_of_connective?_cons hsome)] at h
  cases h

theorem foldOutside_blank {c : Char} (h : isBlank c = true) :
    foldOutside c = ([foldedChar c], .outside) :=
  forall_isBlank (P := fun c => foldOutside c = ([foldedChar c], .outside)) (by decide) h

/-- White space is folded by itself. -/
theorem foldGlyphsFrom_blank_append {gap : List Char} (hgap : ∀ c ∈ gap, isBlank c = true) :
    foldGlyphsFrom .outside (gap ++ text) =
      gap.map foldedChar ++ foldGlyphsFrom .outside text := by
  induction gap with
  | nil => rfl
  | cons c gap ih =>
      rw [List.forall_mem_cons] at hgap
      rw [List.cons_append, foldGlyphsFrom_outside (connective?_blank hgap.1),
        foldOutside_blank hgap.1, ih hgap.2]
      rfl

/-- A word without quotes is folded by itself between white space. -/
theorem foldGlyphs_enclosed {before word behind : List Char}
    (hbefore : ∀ c ∈ before, isBlank c = true) (hword : ∀ c ∈ word, isQuote c = false)
    (hbehind : ∀ c ∈ behind, isBlank c = true) :
    foldGlyphs (before ++ word ++ behind) =
      before.map foldedChar ++ foldGlyphs word ++ behind.map foldedChar := by
  have hletters : ∀ c ∈ behind.head?, c ∉ connectiveLetters := fun c hc =>
    (foldOutside_of_isBlank (hbehind c (List.mem_of_head? hc))).2.1
  have hend := @foldGlyphsFrom_blank_append [] behind hbehind
  rw [List.append_nil, foldGlyphsFrom_nil, List.append_nil] at hend
  rw [foldGlyphs, List.append_assoc, foldGlyphsFrom_blank_append hbefore,
    foldGlyphsFrom_past hletters, Quotation.past_outside hword, hend, List.append_assoc, foldGlyphs]

/-- White space in a plain text is still there when the text is folded. -/
theorem PlainText.foldedChar_mem_foldGlyphs (h : PlainText text) :
    ∀ c ∈ text, isBlank c = true → foldedChar c ∈ foldGlyphs text := by
  rw [foldGlyphs]
  generalize hplace : Quotation.outside = place
  fun_induction foldGlyphsFrom place text with
  | case1 => exact List.forall_mem_nil _
  | case2 | case3 => cases hplace
  | case4 c text symbol beyond hconnective ih =>
      obtain ⟨word, hword, -, heq⟩ := exists_eq_append_of_connective? hconnective
      have hletters : ∀ word ∈ ["かつ".toList, "または".toList], ∀ d ∈ word, isBlank d = false := by
        decide
      intro d hd hblank
      rw [heq, List.mem_append] at hd
      have hrest := hd.resolve_left fun hd => by
        rw [hletters word hword d hd] at hblank
        cases hblank
      exact List.mem_append_right _
        (ih (fun d hd => h d (.tail _ (List.mem_of_mem_drop hd))) rfl d hrest hblank)
  | case5 c text hconnective folded next hfolded ih =>
      obtain ⟨hc, htext⟩ := List.forall_mem_cons.mp h
      obtain ⟨word, hword, -⟩ := exists_foldOutside_of_isPlainChar hc
      obtain ⟨rfl, rfl⟩ := Prod.mk.inj (hfolded.symm.trans hword)
      intro d hd hblank
      rcases List.mem_cons.mp hd with rfl | hd
      · rw [foldOutside_blank hblank] at hfolded
        cases hfolded
        exact .head _
      · exact List.mem_append_right _ (ih htext rfl d hd hblank)

end Folding

/-! ## Texts that lex -/

/-- White space outside of strings stands between the tokens. -/
theorem isTokenGap_of_lexFrom {offset : Nat} {text : List Char} {tokens : List Token}
    (h : lexFrom offset text = .ok tokens) (hquotes : '"' ∉ text) :
    ∀ c ∈ text, isBlank c = true → isTokenGap c = true := by
  have hwritten := written_of_lexFrom h
  refine hwritten.forall_mem (fun c hgap _ => hgap) fun token htoken c hc hblank => ?_
  obtain ⟨first, rest, tail, htail, htext⟩ := exists_tokenTail?_of_mem_lexFrom h token htoken
  rw [htext, String.toList_ofList] at hc
  have hfirst : first ≠ '"' := by
    rintro rfl
    refine hquotes (hwritten.mem_of_mem htoken ?_)
    rw [htext, String.toList_ofList]
    exact .head _
  rcases mem_of_tokenTail? htail hfirst c hc with hword | ⟨entry, hentry, hmem⟩
  · rw [isWordChar_of_isBlank hblank] at hword
    cases hword
  · have hoperators : ∀ entry ∈ operatorWords, ∀ d ∈ entry.1.toList, isBlank d = false := by
      decide
    rw [hoperators entry hentry c hmem] at hblank
    cases hblank

/-! ## Slots without parentheses -/

section Slots

variable {slot : String} {e : Expr}

theorem notMem_of_normalizeText {c : Char} (hc : c ∉ '!' :: negationMarker)
    (hblank : isBlank c = false) {text : String} (h : normalizeText slot = .ok text)
    (hfolded : c ∉ foldGlyphs slot.toList) : c ∉ text.toList := by
  have hcount := @countP_of_normalizeText (· == c) (fun d hd => ?_) (fun d hd => ?_) slot text h
  · rw [← List.count_eq_zero] at hfolded ⊢
    exact hcount.trans hfolded
  · simpa using ne_of_isBlank hd hblank
  · simpa using fun heq : d = c => hc (heq ▸ hd)

/-- Without parentheses a slot reads as what the rewritten text spells. -/
theorem prepare_eq_ok_iff_of_notMem
    (hparens : ∀ c ∈ ['(', ')'], c ∉ foldGlyphs slot.toList) :
    prepare slot = .ok e ↔
      ∃ text, normalizeText slot = .ok text ∧ parseExpr text = .ok e ∧ checkNames e = .ok () := by
  have hbrackets {text : String} (h : normalizeText slot = .ok text) :
      bracketErrors [text.toList] = [] :=
    BracketScan.errors_scanFrom
      (notMem_of_normalizeText (by decide) (by decide) h (hparens _ (.head _)))
      (notMem_of_normalizeText (by decide) (by decide) h (hparens _ (.tail _ (.head _))))
      {} .outside
  rw [prepare_eq_ok_iff]
  constructor
  · rintro ⟨text, hchecked, hread⟩
    exact ⟨text, (checkedText_eq_ok_iff.mp hchecked).1, hread⟩
  · rintro ⟨text, hnormal, hread⟩
    exact ⟨text, checkedText_eq_ok_iff.mpr ⟨hnormal, hbrackets hnormal⟩, hread⟩

end Slots

/-! ## Plain slots -/

/-- The text has no quotes, colons or brackets, as plain texts have none when they are folded. -/
def Bare (text : List Char) : Prop :=
  ∀ c ∈ text, c ∉ '\uff02' :: plainExceptions

theorem PlainText.bare {text : List Char} (h : PlainText text) : Bare (foldGlyphs text) :=
  h.notMem_foldGlyphs

namespace Bare

variable {text : List Char}

theorem notMem (h : Bare text) {c : Char} (hc : c ∈ '\uff02' :: plainExceptions) : c ∉ text :=
  fun hmem => h c hmem hc

theorem ne_quote (h : Bare text) : ∀ c ∈ text, c ≠ '"' ∧ c ≠ '\uff02' := by
  intro c hc
  constructor <;>
    · rintro rfl
      exact h.notMem (by decide) hc

theorem isDoubleQuote_eq_false (h : Bare text) : ∀ c ∈ text, isDoubleQuote c = false :=
  fun c hc => beq_eq_false_iff_ne.mpr (h.ne_quote c hc).1

theorem parens_notMem (h : Bare text) : ∀ c ∈ ['(', ')'], c ∉ text := by
  have hexceptions : ∀ c ∈ ['(', ')'], c ∈ '\uff02' :: plainExceptions := by decide
  exact fun c hc => h.notMem (hexceptions c hc)

end Bare

theorem isQuote_of_isPlainChar {c : Char} (h : isPlainChar c = true) : isQuote c = false := by
  rw [isPlainChar, Bool.and_eq_true, Bool.not_eq_true', Bool.not_eq_true'] at h
  rw [isQuote, h.1, Bool.false_or, beq_eq_false_iff_ne]
  intro hquote
  rw [hquote] at h
  exact absurd h.2 (by decide)

section Plain

variable {slot : String} {e : Expr} {before word behind : List Char}

/-- Without markers a slot is rewritten by folding alone. -/
theorem Unnegated.normalizeText_eq (h : Unnegated slot) :
    normalizeText slot = .ok (foldGlyphsText slot) := by
  rw [normalizeText_eq_ok_iff, foldGlyphsText, String.toList_ofList]
  exact rewriteNegation_eq_self h

/-- White space in a plain text is read over where the folded text lexes. -/
theorem spaced_of_lexFrom {text : List Char} {tokens : List Token} (hplain : PlainText text)
    (h : lexFrom 0 (foldGlyphs text) = .ok tokens) : Spaced text := by
  intro c hc hblank
  have hfolded := (foldOutside_of_isBlank hblank).2.2.2
  rw [foldOutside_blank hblank] at hfolded
  exact of_isTokenGap_foldedChar hblank
    (isTokenGap_of_lexFrom h (hplain.bare.notMem (by decide)) _
      (hplain.foldedChar_mem_foldGlyphs c hc hblank) (hfolded _ (.head _)))

/-- So it is where the slot reads without a negation that moves. -/
theorem spaced_of_prepare (hplain : PlainText slot.toList) (hmarker : Unnegated slot)
    (h : prepare slot = .ok e) : Spaced slot.toList := by
  obtain ⟨text, hchecked, hparse, -⟩ := prepare_eq_ok_iff.mp h
  obtain rfl := hmarker.eq_of_checkedText hchecked
  obtain ⟨tokens, hlex, -⟩ := exists_spells_of_parseExpr hparse
  rw [lex, foldGlyphsText, String.toList_ofList] at hlex
  exact spaced_of_lexFrom hplain hlex

/-- A slot that is a word between white space is folded to the folded word between blanks, and no
negation moves, if no marker stands in that. -/
theorem foldGlyphs_word (hplain : PlainText slot.toList)
    (htext : slot.toList = before ++ word ++ behind) (hbefore : ∀ c ∈ before, isBlank c = true)
    (hbehind : ∀ c ∈ behind, isBlank c = true) (hmarker : ¬ negationMarker <:+: foldGlyphs word) :
    foldGlyphs slot.toList =
        before.map foldedChar ++ foldGlyphs word ++ behind.map foldedChar ∧
      Unnegated slot := by
  have hword : ∀ c ∈ word, isQuote c = false := fun c hc =>
    isQuote_of_isPlainChar (hplain c (by simp [htext, hc]))
  have hfolded := foldGlyphs_enclosed hbefore hword hbehind
  rw [← htext] at hfolded
  have hletters {gap : List Char} (hgap : ∀ c ∈ gap, isBlank c = true) :
      ∀ c ∈ gap.map foldedChar, c ∉ negationMarker := by
    rw [List.forall_mem_map]
    intro c hc
    exact forall_isBlank (P := fun c => foldedChar c ∉ negationMarker) (by decide) (hgap c hc)
  refine ⟨hfolded, ?_⟩
  rw [Unnegated, splitAtMarkerFrom?_eq_none_iff hplain.bare.isDoubleQuote_eq_false, hfolded,
    infix_enclosed_iff (by decide) (hletters hbefore) (hletters hbehind)]
  exact hmarker

/-- So it reads as what the folded word spells, if the white space is read over. -/
theorem prepare_enclosed (hplain : PlainText slot.toList)
    (htext : slot.toList = before ++ word ++ behind) (hbefore : ∀ c ∈ before, isBlank c = true)
    (hbehind : ∀ c ∈ behind, isBlank c = true) (hspaced : Spaced slot.toList)
    (hmarker : ¬ negationMarker <:+: foldGlyphs word) {tokens : List Token}
    (hlexes : LexesBefore (behind.map foldedChar) (utf8Length (before.map foldedChar))
      (foldGlyphs word) tokens)
    (hspells : Spells tokens e) (hnames : checkNames e = .ok ()) : prepare slot = .ok e := by
  obtain ⟨hfolded, hunnegated⟩ := foldGlyphs_word hplain htext hbefore hbehind hmarker
  refine (prepare_eq_ok_iff_of_notMem hplain.bare.parens_notMem).mpr
    ⟨foldGlyphsText slot, hunnegated.normalizeText_eq, ?_, hnames⟩
  rw [parseExpr, lexExpr, lex, foldGlyphsText, String.toList_ofList, hfolded, lexFrom_enclosed
    (hspaced.forall_foldedChar hbefore fun c hc => by simp [htext, hc])
    (hspaced.forall_foldedChar hbehind fun c hc => by simp [htext, hc]) hlexes]
  exact parseTokens_eq_ok_iff.mpr (reads_parseAbove_lowest_iff_spells.mpr hspells)

end Plain

/-! ## Names -/

section Names

variable {slot : String}

theorem isLexeme_of_isSingleToken {kind : TokenKind} (h : isSingleToken slot kind = true)
    (hkind : kind = .name ∨ kind = .number) : IsLexeme kind (trim slot) := by
  rw [isSingleToken] at h
  split at h
  · next token hlex =>
    rw [Bool.and_eq_true, beq_iff_eq, beq_iff_eq] at h
    obtain ⟨rfl, htext⟩ := h
    exact htext ▸ isLexeme_of_mem_lexFrom hlex (.head _) hkind
  · cases h

theorem CharClass.exists_range_of_hasCode {ranges : CharClass} {code : Nat}
    (h : ranges.hasCode code = true) : ∃ range ∈ ranges, range.1 ≤ code ∧ code ≤ range.2 := by
  obtain ⟨range, hrange, hcode⟩ := List.mem_flatMap.mp (mem_codes_of_hasCode h)
  rw [List.mem_range'_1] at hcode
  exact ⟨range, hrange, hcode.1, by omega⟩

/-- The letters among the full-width forms are those of the ASCII letters. -/
theorem isAsciiLetter_foldWidth {c : Char} (hform : isFullWidthForm c = true)
    (h : isLetter c = true) : isAsciiLetter (foldWidth c) = true := by
  have hletters : ∀ range ∈ letterClass, range.2 < 0xFF01 ∨ 0xFF5E < range.1 ∨
      range ∈ [(0xFF21, 0xFF3A), (0xFF41, 0xFF5A)] := by
    decide +kernel
  have hcode : 0xFF01 ≤ c.toNat ∧ c.toNat ≤ 0xFF5E := by simpa [isFullWidthForm] using hform
  obtain ⟨range, hrange, hfirst, hlast⟩ := CharClass.exists_range_of_hasCode h
  have hplain := toNat_foldWidth hcode
  rcases hletters range hrange with hbelow | habove | hmem
  · omega
  · omega
  · simp only [isAsciiLetter, Bool.or_eq_true, Bool.and_eq_true, decide_eq_true_eq]
    have hbounds : 'a'.toNat = 97 ∧ 'z'.toNat = 122 ∧ 'A'.toNat = 65 ∧ 'Z'.toNat = 90 := by decide
    simp only [List.mem_cons, List.not_mem_nil, or_false] at hmem
    rcases hmem with rfl | rfl
    · right
      dsimp only at hfirst hlast
      omega
    · left
      dsimp only at hfirst hlast
      omega

/-- And the digits are those of the ASCII digits. -/
theorem isAsciiDigit_foldWidth {c : Char} (hform : isFullWidthForm c = true)
    (h : isNumeral c = true) : isAsciiDigit (foldWidth c) = true := by
  have hnumerals : ∀ range ∈ numeralClass, range.2 < 0xFF01 ∨ 0xFF5E < range.1 ∨
      range = (0xFF10, 0xFF19) := by
    decide +kernel
  have hcode : 0xFF01 ≤ c.toNat ∧ c.toNat ≤ 0xFF5E := by simpa [isFullWidthForm] using hform
  obtain ⟨range, hrange, hfirst, hlast⟩ := CharClass.exists_range_of_hasCode h
  have hplain := toNat_foldWidth hcode
  rcases hnumerals range hrange with hbelow | habove | rfl
  · omega
  · omega
  · simp only [isAsciiDigit, Bool.and_eq_true, decide_eq_true_eq]
    have hbounds : '0'.toNat = 48 ∧ '9'.toNat = 57 := by decide
    dsimp only at hfirst hlast
    omega

theorem isNameStart_foldWidth {c : Char} (h : isNameStart c = true) :
    isNameStart (foldWidth c) = true := by
  by_cases hform : isFullWidthForm c = true
  · rw [isNameStart, Bool.or_eq_true, beq_iff_eq] at h
    rcases h with rfl | hletter
    · cases hform
    · exact isNameStart_of_isAsciiLetter (isAsciiLetter_foldWidth hform hletter)
  · rwa [foldWidth_eq_self (by simpa using hform)]

theorem isNamePart_foldWidth {c : Char} (h : isNamePart c = true) :
    isNamePart (foldWidth c) = true := by
  by_cases hform : isFullWidthForm c = true
  · rw [isNamePart, Bool.or_eq_true, Bool.or_eq_true, beq_iff_eq] at h
    apply isNamePart_of_isAsciiNamePart
    rw [isAsciiNamePart, Bool.or_eq_true, Bool.or_eq_true]
    rcases h with (rfl | hletter) | hdigit
    · cases hform
    · exact .inl (.inl (isAsciiLetter_foldWidth hform hletter))
    · exact .inl (.inr (isAsciiDigit_foldWidth hform hdigit))
  · rwa [foldWidth_eq_self (by simpa using hform)]

/-- A character of a name is folded to its half-width form. -/
theorem foldOutside_of_isNamePart {c : Char} (h : isNamePart c = true) :
    foldOutside c = ([foldWidth c], .outside) := by
  have hquote := isQuote_of_isPlainChar (isPlainChar_of_isNamePart h)
  rw [isQuote, Bool.or_eq_false_iff] at hquote
  have hglyph : operatorGlyph? (foldWidth c) = none := by
    have hglyphs : ∀ d ∈ ['×', '÷', '−', '≠', '≧', '≥', '≦', '≤', '、', '\u3000'],
        isNamePart d = false := by
      decide +kernel
    have hc : foldWidth c ∉ ['×', '÷', '−', '≠', '≧', '≥', '≦', '≤', '、', '\u3000'] := fun hmem =>
      Bool.false_ne_true ((hglyphs _ hmem).symm.trans (isNamePart_foldWidth h))
    simp only [List.mem_cons, List.not_mem_nil, or_false, not_or] at hc
    simp [operatorGlyph?, hc]
  rw [foldOutside, hquote.1, hglyph, hquote.2]
  rfl

/-- So folding a name without connectives gives its half-width spelling. -/
theorem foldGlyphs_name {word : List Char} (hchars : ∀ c ∈ word, isNamePart c = true)
    (h : ∀ connective ∈ ["かつ".toList, "または".toList], ¬ connective <:+: word) :
    foldGlyphs word = word.map foldWidth := by
  have hquotes : ∀ c ∈ word, isQuote c = false := fun c hc =>
    isQuote_of_isPlainChar (isPlainChar_of_isNamePart (hchars c hc))
  have hfree : ¬ ConnectsFrom .outside word := by
    rw [connectsFrom_iff hquotes]
    rintro ⟨connective, hconnective, hinside⟩
    exact h connective hconnective hinside
  clear h
  rw [foldGlyphs]
  induction word with
  | nil => exact foldGlyphsFrom_nil .outside
  | cons c word ih =>
      rw [List.forall_mem_cons] at hchars hquotes
      have hplace : Quotation.outside.next isQuote c = .outside := by
        rw [Quotation.next, hquotes.1]
        rfl
      rw [connectsFrom_cons, hplace, eq_self, true_and, not_or, Bool.not_eq_true,
        Option.isSome_eq_false_iff, Option.isNone_iff_eq_none] at hfree
      rw [foldGlyphsFrom_outside hfree.1, foldOutside_of_isNamePart hchars.1,
        ih hchars.2 hquotes.2 hfree.2]
      rfl

/-- What folding leaves alone and ASCII does not print stands in a folded word exactly where it
stands in the word. -/
theorem infix_map_foldWidth_iff {text word : List Char}
    (htext : ∀ c ∈ text, foldWidth c = c ∧ (c.toNat < 0x21 ∨ 0x7E < c.toNat)) :
    text <:+: word.map foldWidth ↔ text <:+: word := by
  constructor
  · rintro ⟨before, behind, heq⟩
    obtain ⟨front, behind, rfl, hfront, rfl⟩ := List.map_eq_append_iff.mp heq.symm
    obtain ⟨before, typed, rfl, rfl, rfl⟩ := List.map_eq_append_iff.mp hfront
    rw [List.forall_mem_map] at htext
    have hsame : typed.map foldWidth = typed.map id :=
      List.map_congr_left fun c hc => (eq_of_foldWidth_eq rfl (htext c hc).2).symm
    rw [hsame, List.map_id]
    exact ⟨before, behind, rfl⟩
  · intro h
    have hsame : text.map foldWidth = text.map id :=
      List.map_congr_left fun c hc => (htext c hc).1
    have hmap := h.map foldWidth
    rwa [hsame, List.map_id] at hmap

/-- Folding a name makes no connective and no marker, and takes none apart. -/
theorem infix_narrow_iff {text : List Char}
    (htext : text ∈ [negationMarker, "かつ".toList, "または".toList]) (word : String) :
    text <:+: (narrow word).toList ↔ text <:+: word.toList := by
  have hforeign : ∀ text ∈ [negationMarker, "かつ".toList, "または".toList], ∀ c ∈ text,
      foldWidth c = c ∧ (c.toNat < 0x21 ∨ 0x7E < c.toNat) := by
    decide
  rw [narrow, String.toList_ofList]
  exact infix_map_foldWidth_iff (hforeign text htext)

theorem reservedSegment?_eq_none_iff {word : String} (hdot : '.' ∉ word.toList) :
    reservedSegment? word = none ↔ isReserved word = false := by
  rw [reservedSegment?, stringPiecesAt, piecesAt_eq_singleton hdot, List.map_singleton,
    String.ofList_toList, List.find?_eq_none, List.forall_mem_singleton, Bool.not_eq_true]

/-- A variable name that is not reserved in half width may stand for a name there. -/
theorem nameable_narrow (h : isVariableName slot = true)
    (hfree : isReserved (narrow (trim slot)) = false) : Nameable (narrow (trim slot)) := by
  obtain ⟨c, rest, hcons, hstart, hchars⟩ := exists_word_of_isVariableName h
  have hlist : (narrow (trim slot)).toList = foldWidth c :: rest.map foldWidth := by
    rw [narrow, trim, String.toList_ofList, String.toList_ofList, hcons, List.map_cons]
  rw [List.forall_mem_cons] at hchars
  have hrest : ∀ d ∈ rest.map foldWidth, isNamePart d = true :=
    List.forall_mem_map.mpr fun d hd => isNamePart_foldWidth (hchars.2 d hd)
  have hstart' := isNameStart_foldWidth hstart
  have hkind : wordKind (foldWidth c :: rest.map foldWidth) = .name := by
    rw [← String.ofList_toList (s := narrow (trim slot)), hlist] at hfree
    exact wordKind_of_isReserved hfree
  refine ⟨⟨foldWidth c, rest.map foldWidth, hlist, fun behind hbehind => ?_⟩,
    (reservedSegment?_eq_none_iff ?_).mpr hfree⟩
  · exact tokenTail?_append (hkind ▸ tokenTail?_name hstart' hrest) (.inl hstart') hbehind.endsWord
  · rw [hlist, List.mem_cons, not_or]
    constructor
    · intro hdot
      rw [← hdot] at hstart'
      revert hstart'
      decide
    · exact fun hdot => absurd (hrest _ hdot) (by decide)

/-- The slot is folded to the name, which is free, and no negation moves in it. -/
structure FoldsToFreeName (slot word : String) : Prop where
  folds : FoldsToName slot word
  free : reservedSegment? word = none
  unnegated : Unnegated slot

/-- The name that an expression assigns to is free, if all of its names are. -/
theorem reservedSegment?_of_assignableName? {e : Expr} {word : String}
    (hnames : checkNames e = .ok ()) (hword : e.assignableName? = some word) :
    reservedSegment? word = none := by
  fun_induction Expr.assignableName? e with
  | case1 span name =>
      cases hword
      exact checkNames_eq_ok_iff.mp hnames _ (Expr.mem_parts_self _) _ rfl
  | case2 span base position ih => exact ih (checkNames_index_iff.mp hnames).1 hword
  | case3 => cases hword

/-- Where a slot, or an element that starts with it, reads as that of a name, the slot is folded to
the name. -/
theorem foldsToFreeName_of_prepare {whole : String} {rest : List Char} {e : Expr} {word : String}
    (hslot : Bare (foldGlyphs slot.toList)) (hrest : ∀ c ∈ rest.head?, c = '[')
    (hquote : '"' ∉ rest) (hwhole : foldGlyphs whole.toList = foldGlyphs slot.toList ++ rest)
    (hread : prepare whole = .ok e) (hword : e.assignableName? = some word) :
    FoldsToFreeName slot word := by
  obtain ⟨text, hchecked, hparse, hnames⟩ := prepare_eq_ok_iff.mp hread
  obtain ⟨hnormal, -⟩ := checkedText_eq_ok_iff.mp hchecked
  have hrewrite := normalizeText_eq_ok_iff.mp hnormal
  obtain ⟨hlexeme, before, behind, htext, hbefore, hbehind⟩ :=
    exists_takeWhile_eq_of_parseExpr hparse hword
  have hmark : '!' ∉ text.toList.takeWhile (· != '[') := by
    rw [htext, List.mem_append, List.mem_append]
    rintro ((hmem | hmem) | hmem)
    · cases hbefore _ hmem
    · exact absurd (hlexeme.isWordChar_of_mem _ hmem) (by decide)
    · cases hbehind _ hmem
  have hsame := takeWhile_rewriteNegation (fun c hc => bne_iff_ne.mpr hc) hrewrite hmark
  have hfront : (foldGlyphs whole.toList).takeWhile (· != '[') = foldGlyphs slot.toList := by
    have hall : ∀ c ∈ foldGlyphs slot.toList, (c != '[') = true := by
      intro c hc
      rw [bne_iff_ne]
      rintro rfl
      exact hslot.notMem (by decide) hc
    rw [hwhole, (takeWhile_append_eq fun c hc => by simp [hrest c hc]).1,
      List.takeWhile_eq_self_iff.mpr hall]
  rw [hfront, htext] at hsame
  refine ⟨?_, reservedSegment?_of_assignableName? hnames hword, ?_⟩
  · rw [FoldsToName, lex, foldGlyphsText, String.toList_ofList, ← hsame,
      lexFrom_enclosed hbefore hbehind (hlexeme.lexesBefore_gaps (.inl rfl) hbehind _)]
    exact congrArg (fun word => Except.ok [(TokenKind.name, word)]) String.ofList_toList
  · -- A marker in the slot would be one in the rewritten text.
    have hquotes : ∀ c ∈ text.toList, isDoubleQuote c = false := by
      intro c hc
      rw [isDoubleQuote, beq_eq_false_iff_ne]
      rintro rfl
      refine notMem_of_normalizeText (by decide) (by decide) hnormal ?_ hc
      rw [hwhole, List.mem_append, not_or]
      exact ⟨hslot.notMem (by decide), hquote⟩
    have hnone := splitAtMarkerFrom?_of_rewriteNegation hrewrite
    rw [splitAtMarkerFrom?_eq_none_iff hquotes] at hnone
    rw [Unnegated, splitAtMarkerFrom?_eq_none_iff hslot.isDoubleQuote_eq_false, ← hsame, ← htext]
    exact fun hfound => hnone (hfound.trans (List.takeWhile_prefix _).isInfix)

/-- A slot without quotes and brackets reads as a name exactly where it is folded to the name. -/
theorem readsAs_iff_foldsToFreeName {word : String} (hslot : Bare (foldGlyphs slot.toList)) :
    ReadsAs slot word ↔ FoldsToFreeName slot word := by
  constructor
  · rintro ⟨span, hread⟩
    exact foldsToFreeName_of_prepare hslot (by simp) List.not_mem_nil (List.append_nil _).symm hread
      rfl
  · rintro ⟨hfolds, hfree, hmarker⟩
    obtain ⟨tokens, hlex, hwords⟩ := map_eq_ok_iff.mp hfolds
    obtain ⟨token, rfl, hword⟩ := List.map_eq_singleton_iff.mp hwords
    obtain ⟨hkind, rfl⟩ := Prod.mk.inj hword
    have hspells : Spells [token] (.name token.span token.text) :=
      (Derives.name hkind .noPosition).of_le (by decide) (by decide)
    refine ⟨token.span, (prepare_eq_ok_iff_of_notMem hslot.parens_notMem).mpr
      ⟨foldGlyphsText slot, hmarker.normalizeText_eq, ?_, checkNames_name_eq_ok hfree _⟩⟩
    rw [parseExpr, lexExpr, hlex]
    exact parseTokens_eq_ok_iff.mpr (reads_parseAbove_lowest_iff_spells.mpr hspells)

/-- A variable name is folded to a name where it stays whole, and to its half-width spelling. -/
theorem FoldsToFreeName.staysWhole (h : isVariableName slot = true) {word : String}
    (hname : FoldsToFreeName slot word) :
    word = narrow (trim slot) ∧ StaysWhole (trim slot) ∧ Spaced slot.toList := by
  have hplain := plainText_of_isVariableName h
  obtain ⟨first, rest, hcons, -, hchars⟩ := exists_word_of_isVariableName h
  rw [← hcons] at hchars
  obtain ⟨tokens, hlex, hwords⟩ := map_eq_ok_iff.mp hname.folds
  obtain ⟨token, rfl, hword⟩ := List.map_eq_singleton_iff.mp hwords
  obtain ⟨hkind, rfl⟩ := Prod.mk.inj hword
  have hlexeme : IsLexeme .name token.text :=
    hkind ▸ isLexeme_of_mem_lexFrom hlex (.head _) (.inl hkind)
  obtain ⟨before, behind, hfolded, hbefore, hbehind⟩ := (written_of_lexFrom hlex).single
  have hall (text : List Char) : text.takeWhile (fun _ => true) = text :=
    List.takeWhile_eq_self_iff.mpr fun _ _ => rfl
  have hwidth := map_foldWidth_trimChars (p := fun _ => true) (fun _ _ => rfl)
    hname.unnegated.normalizeText_eq hlexeme (by rwa [hall]) hbefore hbehind
  have hnarrow : token.text = narrow (trim slot) := by
    rw [hall] at hwidth
    rw [narrow, trim, String.toList_ofList, hwidth, String.ofList_toList]
  rw [foldGlyphsText, String.toList_ofList] at hfolded
  have hparts : ∀ c ∈ token.text.toList, isNamePart c = true := by
    rw [← hwidth, hall]
    exact List.forall_mem_map.mpr fun c hc => isNamePart_foldWidth (hchars c hc)
  have hinside : (narrow (trim slot)).toList <:+: foldGlyphs slot.toList :=
    ⟨before, behind, by rw [← hnarrow, hfolded]⟩
  have hquotes : ∀ c ∈ foldGlyphs slot.toList, isQuote c = false := by
    rw [hfolded]
    simp only [List.forall_mem_append]
    exact ⟨⟨fun c hc => (foldOutside_of_isBlank (isBlank_of_isTokenGap (hbefore c hc))).1,
      fun c hc => isQuote_of_isPlainChar (isPlainChar_of_isNamePart (hparts c hc))⟩,
      fun c hc => (foldOutside_of_isBlank (isBlank_of_isTokenGap (hbehind c hc))).1⟩
  refine ⟨hnarrow, ⟨fun connective hconnective hfound => ?_, fun hfound => ?_, ?_⟩, ?_⟩
  · rw [← infix_narrow_iff (.tail _ hconnective)] at hfound
    exact not_connectsFrom_foldGlyphsFrom .outside slot.toList
      ((connectsFrom_iff hquotes).mpr ⟨connective, hconnective, hfound.trans hinside⟩)
  · rw [← infix_narrow_iff (.head _)] at hfound
    have hmarker := hname.unnegated
    rw [Unnegated, splitAtMarkerFrom?_eq_none_iff hplain.bare.isDoubleQuote_eq_false] at hmarker
    exact hmarker (hfound.trans hinside)
  · rw [← hnarrow, ← reservedSegment?_eq_none_iff fun hdot => absurd (hparts _ hdot) (by decide)]
    exact hname.free
  · rw [lex, foldGlyphsText, String.toList_ofList] at hlex
    exact spaced_of_lexFrom hplain hlex

/-- And where it stays whole, it is folded to that spelling. -/
theorem StaysWhole.foldsToFreeName (h : isVariableName slot = true)
    (hwhole : StaysWhole (trim slot)) (hspaced : Spaced slot.toList) : FoldsToFreeName slot
    (narrow (trim slot)) := by
  have hplain := plainText_of_isVariableName h
  have hnameable := nameable_narrow h hwhole.free
  obtain ⟨first, rest, hcons, -, hchars⟩ := exists_word_of_isVariableName h
  rw [← hcons] at hchars
  obtain ⟨before, behind, htext, hbefore, hbehind⟩ := exists_eq_append_trimChars slot.toList
  have htrim : (trim slot).toList = trimChars slot.toList := String.toList_ofList
  have hfold : foldGlyphs (trimChars slot.toList) = (narrow (trim slot)).toList := by
    rw [foldGlyphs_name hchars (htrim ▸ hwhole.unconnected), narrow, String.toList_ofList, htrim]
  obtain ⟨hfolded, hmarker⟩ := foldGlyphs_word hplain htext hbefore hbehind
    (by rw [hfold, infix_narrow_iff (.head _)]; exact hwhole.unmarked)
  have hgaps {gap : List Char} (hgap : ∀ c ∈ gap, isBlank c = true)
      (hin : ∀ c ∈ gap, c ∈ slot.toList) := hspaced.forall_foldedChar hgap hin
  have hends := hgaps hbehind fun c hc => by rw [htext]; simp [hc]
  refine ⟨?_, hnameable.free, hmarker⟩
  rw [FoldsToName, lex, foldGlyphsText, String.toList_ofList, hfolded, hfold, lexFrom_enclosed
    (hgaps hbefore fun c hc => by rw [htext]; simp [hc]) hends
    (hnameable.lexeme.lexesBefore_gaps (.inl rfl) hends _)]
  exact congrArg (fun word => Except.ok [(TokenKind.name, word)]) String.ofList_toList

/-- A variable name reads as a name exactly where it stays whole and the white space around it is
read over, and it reads as its half-width spelling then. -/
theorem readsAs_iff (h : isVariableName slot = true) {word : String} :
    ReadsAs slot word ↔
      word = narrow (trim slot) ∧ StaysWhole (trim slot) ∧ Spaced slot.toList := by
  rw [readsAs_iff_foldsToFreeName (plainText_of_isVariableName h).bare]
  constructor
  · exact FoldsToFreeName.staysWhole h
  · rintro ⟨rfl, hwhole, hspaced⟩
    exact hwhole.foldsToFreeName h hspaced

end Names

/-! ## Numbers -/

section Numbers

variable {slot : String}

/-- The expression that a number is: a minus sign in front of it negates it. -/
def signedNumber : List Char → Expr
  | '-' :: digits => .unary default .negate (.number default (String.ofList digits))
  | digits => .number default (String.ofList digits)

/-- The characters of numbers are no glyphs and stand in no marker. -/
theorem foldOutside_of_isAsciiDigit {c : Char} (h : isAsciiDigit c = true ∨ c = '.') :
    (c ∉ ['か', 'ま'] ∧ foldOutside c = ([c], .outside)) ∧ c ∉ negationMarker := by
  have hchars : ∀ d ∈ "0123456789.".toList,
      (d ∉ ['か', 'ま'] ∧ foldOutside d = ([d], .outside)) ∧ d ∉ negationMarker := by
    decide
  apply hchars
  rcases h with hdigit | rfl
  · refine forall_isAsciiNamePart
      (P := fun c => isAsciiDigit c = true → c ∈ "0123456789.".toList) (by decide) ?_ hdigit
    rw [isAsciiNamePart, hdigit, Bool.or_true]
    rfl
  · decide

/-- A number is one token, with or without a minus sign in front of it. -/
theorem exists_digits_of_isNumberText (h : isNumberText slot = true) :
    ∃ digits : String, IsLexeme .number digits ∧
      (trimChars slot.toList = digits.toList ∨ trimChars slot.toList = '-' :: digits.toList) := by
  rw [isNumberText, Bool.and_eq_true] at h
  split at h
  · next digits hsigned =>
    obtain ⟨hsingle, hhead⟩ := h
    have hlast : ∀ c ∈ digits.getLast?, isBlank c = false := by
      intro c hc
      refine @isBlank_getLast_trimChars slot.toList c ?_
      rw [hsigned, List.getLast?_cons]
      simp [Option.mem_def.mp hc]
    have hfirst : ∀ c ∈ digits.head?, isBlank c = false := by
      intro c hc
      simpa [Option.mem_def.mp hc] using hhead
    have htrim : trim (String.ofList digits) = String.ofList digits := by
      rw [trim, String.toList_ofList, trimChars_of_ends hfirst hlast]
    refine ⟨_, htrim ▸ isLexeme_of_isSingleToken hsingle (.inr rfl), .inr ?_⟩
    rw [hsigned, String.toList_ofList]
  · obtain ⟨hsingle, -⟩ := h
    refine ⟨_, isLexeme_of_isSingleToken hsingle (.inr rfl), .inl ?_⟩
    rw [trim, String.toList_ofList, String.toList_ofList, trimChars_trimChars]

/-- What is written with digits and perhaps a sign is folded to itself, and no marker stands in
it. -/
theorem foldGlyphs_of_digits {digits : String} (h : IsLexeme .number digits) {word : List Char}
    (hword : word = digits.toList ∨ word = '-' :: digits.toList) :
    foldGlyphs word = word ∧ ¬ negationMarker <:+: word := by
  have hchars : ∀ c ∈ word,
      (c ∉ ['か', 'ま'] ∧ foldOutside c = ([c], .outside)) ∧ c ∉ negationMarker := by
    have hdigits : ∀ c ∈ digits.toList,
        (c ∉ ['か', 'ま'] ∧ foldOutside c = ([c], .outside)) ∧ c ∉ negationMarker :=
      fun c hc => foldOutside_of_isAsciiDigit (h.isAsciiDigit_of_mem c hc)
    rcases hword with rfl | rfl
    · exact hdigits
    · exact List.forall_mem_cons.mpr ⟨by decide, hdigits⟩
  constructor
  · have hfold := foldGlyphs_append_of_forall (fun c hc => (hchars c hc).1) []
    rwa [List.append_nil, foldGlyphs_nil, List.append_nil] at hfold
  · exact fun hinside => (hchars 'で' (hinside.subset (.head _))).2 (.head _)

/-- The words of a number before white space that the lexer skips. -/
theorem exists_spells_signedNumber {digits : String} (h : IsLexeme .number digits)
    {word : List Char} (hword : word = digits.toList ∨ word = '-' :: digits.toList)
    {rest : List Char} (hrest : ∀ c ∈ rest, isTokenGap c = true) (offset : Nat) :
    ∃ tokens e, LexesBefore rest offset word tokens ∧ Spells tokens e ∧
      checkNames e = .ok () ∧ e.unplaced = (signedNumber word).unplaced := by
  rcases hword with rfl | rfl
  · have hlexes := h.lexesBefore_gaps (.inr rfl) hrest offset
    refine ⟨_, .number _ _, hlexes, (Derives.number rfl).of_le (by decide) (by decide), rfl, ?_⟩
    rw [signedNumber]
    · rfl
    · intro rest' hsign
      have hmem : '-' ∈ digits.toList := hsign ▸ .head _
      exact absurd (h.isAsciiDigit_of_mem _ hmem) (by decide)
  · have hlexes := h.lexesBefore_gaps (.inr rfl) hrest (offset + utf8Length ['-'])
    exact ⟨_, .unary _ _ _, (LexesBefore.single rfl).append hlexes,
      (Derives.negate rfl (Derives.unsigned (.unraised (.number rfl)))).of_le
        (by decide) (by decide), rfl, rfl⟩

/-- A number reads as itself exactly where the white space around it is read over. -/
theorem readsLike_signedNumber_iff (h : isNumberText slot = true) :
    ReadsLike slot (signedNumber (trimChars slot.toList)) ↔ Spaced slot.toList := by
  have hplain := plainText_of_isNumberText h
  obtain ⟨digits, hdigits, hword⟩ := exists_digits_of_isNumberText h
  obtain ⟨hfold, hmarker⟩ := foldGlyphs_of_digits hdigits hword
  rw [← hfold] at hmarker
  obtain ⟨before, behind, htext, hbefore, hbehind⟩ := exists_eq_append_trimChars slot.toList
  constructor
  · rintro ⟨e, hread, -⟩
    exact spaced_of_prepare hplain (foldGlyphs_word hplain htext hbefore hbehind hmarker).2 hread
  · intro hspaced
    have hgaps := hspaced.forall_foldedChar hbehind fun c hc => by rw [htext]; simp [hc]
    obtain ⟨tokens, e, hlexes, hspells, hnames, hsame⟩ :=
      exists_spells_signedNumber hdigits hword hgaps (utf8Length (before.map foldedChar))
    rw [← hfold] at hlexes
    exact ⟨e, prepare_enclosed hplain htext hbefore hbehind hspaced hmarker hlexes hspells hnames,
      hsame⟩

end Numbers

end BlockCode
