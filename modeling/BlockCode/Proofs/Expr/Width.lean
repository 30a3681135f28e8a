/- # Names as they are typed

A slot that is written to starts with the name of a variable, and at most positions in square
brackets follow the name. Reading the slot does little to the name: white space around it goes away,
and each of its full-width forms becomes the ASCII character of that form. So the name can be told
from the slot without reading it, and it stands there as it is where it has no full-width forms.
-/

import BlockCode.Proofs.Expr.Commas

namespace BlockCode

/-! ## The name at the front of an expression -/

/-- What a phrase says of its tokens where its tree can be written to: they start with the name of
the variable, and only a position may come behind it. -/
def Phrase.NameFirst : Phrase → List Token → Prop
  | .expr _ e, ws => ∀ word, e.assignableName? = some word →
    ∃ token behind, ws = token :: behind ∧ token.kind = .name ∧ token.text = word ∧
      ∀ next ∈ behind.head?, next.kind = .leftBracket
  | .operators _ base e, ws => ∀ word, e.assignableName? = some word →
    base.assignableName? = some word ∧ ws = []
  | .positions base e, ws => ∀ word, e.assignableName? = some word →
    base.assignableName? = some word ∧ ∀ next ∈ ws.head?, next.kind = .leftBracket
  | .arguments .., _ | .items .., _ => True

theorem Derives.nameFirst {phrase : Phrase} {ws : List Token} (h : Derives phrase ws) :
    phrase.NameFirst ws := by
  induction h with
  | chain _ _ _ ihfirst ihrest =>
      intro word he
      obtain ⟨hfirst, rfl⟩ := ihrest word he
      rw [List.append_nil]
      exact ihfirst word hfirst
  | noOperator => exact fun _ he => ⟨he, rfl⟩
  | noPosition => exact fun _ he => ⟨he, by simp⟩
  | operator _ _ _ _ _ ihrest =>
      intro word he
      cases (ihrest word he).1
  | unsigned _ ih | unraised _ ih => exact ih
  | negate | not | raised | number | string | trueWord | falseWord | group | userCall =>
      intro word he
      cases he
  | @name token e ws htoken _ ih =>
      intro word he
      obtain ⟨hname, hbehind⟩ := ih word he
      cases hname
      exact ⟨token, ws, rfl, htoken, rfl, hbehind⟩
  | call _ _ _ _ _ ihrest | builtin _ _ _ _ _ _ ihrest =>
      intro word he
      cases (ihrest word he).1
  | position hopening _ _ _ _ ihrest =>
      intro word he
      refine ⟨(ihrest word he).1, fun next hnext => ?_⟩
      cases hnext
      exact hopening
  | noArgument | arguments | lastItem | nextItem => trivial

/-- White space may stand in front of the first token, and the other tokens are behind it. -/
theorem Written.exists_eq_of_cons {token : Token} {tokens : List Token} {text : List Char}
    (h : Written (token :: tokens) text) : ∃ before behind,
      text = before ++ token.text.toList ++ behind ∧ (∀ c ∈ before, isTokenGap c = true) ∧
        Written tokens behind := by
  generalize htokens : token :: tokens = all at h
  induction h with
  | nil => cases htokens
  | @gap c all text hgap _ ih =>
      obtain ⟨before, behind, rfl, hbefore, hbehind⟩ := ih htokens
      exact ⟨c :: before, behind, by simp, List.forall_mem_cons.mpr ⟨hgap, hbefore⟩, hbehind⟩
  | token _ h =>
      cases htokens
      exact ⟨[], _, by simp, by simp, h⟩

/-- An opening square bracket is its own only spelling. -/
theorem eq_leftBracket_of_tokenTail? {c : Char} {rest tail : List Char}
    (h : tokenTail? c rest = some (.leftBracket, tail)) : c = '[' := by
  rw [tokenTail?] at h
  split at h
  · split at h
    · cases h
    · have hkind := (Prod.mk.inj (Option.some.inj h)).1
      have hmem := wordKind_mem (c :: wordTail c rest)
      rw [hkind] at hmem
      exact absurd hmem (by decide)
  · split at h
    · cases h
    · split at h
      · have hkind := (Prod.mk.inj (Option.some.inj h)).1
        split at hkind <;> cases hkind
      · obtain ⟨⟨word, kind⟩, hfind, heq⟩ := Option.map_eq_some_iff.mp h
        obtain ⟨rfl, -⟩ := Prod.mk.inj heq
        have hbracket : ∀ entry ∈ operatorWords, entry.2 = .leftBracket →
            entry.1.toList.head? = some '[' := by decide
        obtain ⟨hmem, hword, -⟩ := eq_cons_of_find?_operatorWords hfind
        have hhead := hbracket _ hmem rfl
        rw [hword] at hhead
        cases hhead
        rfl

/-- A text that reads as something that can be written to is a name between white space, up to the
first square bracket. -/
theorem exists_takeWhile_eq_of_parseExpr {text : String} {e : Expr} (h : parseExpr text = .ok e)
    {word : String} (hword : e.assignableName? = some word) :
    IsLexeme .name word ∧ ∃ before behind,
      text.toList.takeWhile (· != '[') = before ++ word.toList ++ behind ∧
        (∀ c ∈ before, isTokenGap c = true) ∧ ∀ c ∈ behind, isTokenGap c = true := by
  obtain ⟨tokens, hlex, hspells⟩ := exists_spells_of_parseExpr h
  obtain ⟨token, tokens, rfl, hkind, rfl, hnext⟩ := hspells.nameFirst word hword
  have hlexeme : IsLexeme .name token.text :=
    hkind ▸ isLexeme_of_mem_lexFrom hlex (.head _) (.inl hkind)
  obtain ⟨before, rest, htext, hbefore, hrest⟩ := (written_of_lexFrom hlex).exists_eq_of_cons
  have notBracket {c : Char} (hc : isTokenGap c = true ∨ isWordChar c = true) :
      (c != '[') = true := by
    rw [bne_iff_ne]
    rintro rfl
    revert hc
    decide
  -- Behind the name there is white space up to a bracket or up to the end.
  obtain ⟨behind, tail, rfl, hbehind, htail⟩ : ∃ behind tail, rest = behind ++ tail ∧
      (∀ c ∈ behind, isTokenGap c = true) ∧ ∀ c ∈ tail.head?, (c != '[') = false := by
    cases tokens with
    | nil => exact ⟨rest, [], by simp, hrest.gaps, by simp⟩
    | cons next tokens =>
        obtain ⟨behind, more, rfl, hbehind, -⟩ := hrest.exists_eq_of_cons
        obtain ⟨c, _, tail, hopening, hspelled⟩ :=
          exists_tokenTail?_of_mem_lexFrom hlex next (.tail _ (.head _))
        rw [hnext next rfl] at hopening
        obtain rfl := eq_leftBracket_of_tokenTail? hopening
        refine ⟨behind, next.text.toList ++ more, by simp, hbehind, fun d hd => ?_⟩
        rw [hspelled, String.toList_ofList] at hd
        cases hd
        rfl
  refine ⟨hlexeme, before, behind, ?_, hbefore, hbehind⟩
  rw [htext, ← List.append_assoc, (takeWhile_append_of_head ?_ htail).1]
  rw [List.forall_mem_append, List.forall_mem_append]
  exact ⟨⟨fun c hc => notBracket (.inl (hbefore c hc)),
    fun c hc => notBracket (.inr (hlexeme.isWordChar_of_mem c hc))⟩,
    fun c hc => notBracket (.inl (hbehind c hc))⟩

/-! ## Rewriting the text around a name -/

/-- The character that a name or the white space beside it is typed with becomes this one. -/
def foldedChar (c : Char) : Char :=
  if c = '\u3000' then ' ' else foldWidth c

/-- The ASCII character that a full-width form becomes. -/
theorem toNat_foldWidth {c : Char} (h : 0xFF01 ≤ c.toNat ∧ c.toNat ≤ 0xFF5E) :
    (foldWidth c).toNat = c.toNat - 0xFEE0 := by
  have hvalid : (c.toNat - 0xFEE0).isValidChar := .inl (by omega)
  rw [foldWidth, if_pos (by simpa using h), Char.ofNat, dif_pos hvalid]
  rfl

/-- Folding widths twice is folding them once. -/
theorem foldWidth_foldWidth (c : Char) : foldWidth (foldWidth c) = foldWidth c := by
  by_cases hform : 0xFF01 ≤ c.toNat ∧ c.toNat ≤ 0xFF5E
  · have hcode := toNat_foldWidth hform
    have hplain : ¬(0xFF01 ≤ (foldWidth c).toNat ∧ (foldWidth c).toNat ≤ 0xFF5E) := by
      omega
    rw [foldWidth.eq_def (foldWidth c), if_neg (by simpa using hplain)]
  · have hsame : foldWidth c = c := by
      rw [foldWidth, if_neg (by simpa using hform)]
    rw [hsame, hsame]

/-- What is not printable ASCII comes from no full-width form. -/
theorem eq_of_foldWidth_eq {c d : Char} (h : foldWidth c = d)
    (hd : d.toNat < 0x21 ∨ 0x7E < d.toNat) : c = d := by
  by_cases hform : 0xFF01 ≤ c.toNat ∧ c.toNat ≤ 0xFF5E
  · have hcode := toNat_foldWidth hform
    rw [h] at hcode
    omega
  · rwa [foldWidth, if_neg (by simpa using hform)] at h

/-- The character stands neither in a name nor beside it. -/
def isForeign (c : Char) : Bool :=
  !isTokenGap c && !isWordChar c && c != '['

/-- What becomes a character when widths are folded is that character or its full-width form. -/
theorem eq_or_eq_of_foldWidth_eq {c d : Char} (h : foldWidth c = d) :
    c = d ∨ c = Char.ofNat (d.toNat + 0xFEE0) := by
  by_cases hform : 0xFF01 ≤ c.toNat ∧ c.toNat ≤ 0xFF5E
  · have hcode := toNat_foldWidth hform
    rw [h] at hcode
    rw [show d.toNat + 0xFEE0 = c.toNat by omega, Char.ofNat_toNat]
    exact .inr rfl
  · rw [foldWidth, if_neg (by simpa using hform)] at h
    exact .inl h

/-- A quote is typed as it is or in full width. -/
theorem eq_quote_of_foldWidth_eq {c : Char} (h : foldWidth c = '"') : c = '"' ∨ c = '\uff02' :=
  eq_or_eq_of_foldWidth_eq h

/-- A quote that opens a string stays as it is typed, and no name has it. -/
theorem isForeign_of_foldWidth_eq_quote {c : Char} (h : foldWidth c = '"') :
    isForeign c = true := by
  rcases eq_quote_of_foldWidth_eq h with rfl | rfl <;> decide +kernel

/-- The glyphs with what they become. -/
def operatorGlyphs : List (Char × String) :=
  [('×', "*"), ('÷', "//"), ('−', "-"), ('≠', "!="), ('≧', ">="), ('≥', ">="), ('≦', "<="),
    ('≤', "<="), ('、', ","), ('\u3000', " ")]

theorem mem_operatorGlyphs {c : Char} {replacement : String}
    (h : operatorGlyph? c = some replacement) : (c, replacement) ∈ operatorGlyphs := by
  have hfolded : ∀ entry ∈ operatorGlyphs, operatorGlyph? entry.1 = some entry.2 := by decide
  by_cases hc : ∃ entry ∈ operatorGlyphs, c = entry.1
  · obtain ⟨entry, hmem, rfl⟩ := hc
    cases (hfolded entry hmem).symm.trans h
    exact hmem
  · simp only [operatorGlyphs, List.mem_cons, exists_eq_or_imp, not_or] at hc
    simp only [operatorGlyph?, beq_iff_eq, Bool.or_eq_true, hc, or_self, if_false] at h
    cases h

/-- Of the glyphs only the ideographic space becomes something that may stand beside a name. -/
theorem operatorGlyph?_cases {c : Char} {replacement : String}
    (h : operatorGlyph? c = some replacement) :
    c = '\u3000' ∧ replacement = " " ∨ ∃ d ∈ replacement.toList.head?, isForeign d = true := by
  have hreplacements : ∀ entry ∈ operatorGlyphs, entry.1 = '\u3000' ∧ entry.2 = " " ∨
      entry.2.toList.head?.any isForeign = true := by
    decide
  exact (hreplacements _ (mem_operatorGlyphs h)).imp_right (Option.any_eq_true _ _).mp

/-- Outside strings a character becomes one character, or something that stands neither in a name
nor beside it. -/
theorem foldOutside_cases (c : Char) :
    foldOutside c = ([foldedChar c], .outside) ∨
      ∃ d ∈ (foldOutside c).1.head?, isForeign d = true := by
  rw [foldOutside]
  split
  · exact .inr ⟨'"', rfl, by decide⟩
  · split
    · rename_i replacement hglyph
      rcases operatorGlyph?_cases hglyph with ⟨hspace, rfl⟩ | hforeign
      · obtain rfl := eq_of_foldWidth_eq hspace (by decide)
        exact .inl rfl
      · exact .inr hforeign
    · rename_i hglyph
      have hspace : c ≠ '\u3000' := by
        rintro rfl
        cases hglyph
      rw [foldedChar, if_neg hspace]
      split
      · rename_i hquote
        exact .inr ⟨c, rfl, isForeign_of_foldWidth_eq_quote (eq_of_beq hquote)⟩
      · exact .inl rfl

/-- A connective becomes something with an operator in it. -/
theorem mem_of_connective? {text symbol : List Char} {beyond : Nat}
    (h : connective? text = some (symbol, beyond)) :
    symbol = " && ".toList ∨ symbol = " || ".toList := by
  obtain ⟨entry, hfind, heq⟩ := Option.map_eq_some_iff.mp h
  obtain ⟨rfl, -⟩ := Prod.mk.inj heq
  have hmem := List.mem_of_find?_eq_some hfind
  revert hmem
  simp only [connectives, List.mem_cons, List.not_mem_nil, or_false]
  rintro (rfl | rfl)
  · exact .inl rfl
  · exact .inr rfl

/-- The operator comes in front of what it negates, and white space behind that goes away. -/
theorem exists_eq_of_negateLast? {front negated : List Char}
    (h : negateLast? front = some negated) :
    ∃ before operand blanks, front = before ++ (operand ++ blanks) ∧
      negated = before ++ '!' :: operand := by
  obtain ⟨n, -, rfl⟩ := Option.map_eq_some_iff.mp h
  refine ⟨_, _, (front.reverse.takeWhile isBlank).reverse, ?_, rfl⟩
  rw [← List.append_assoc, ← List.reverse_append, List.take_append_drop, ← List.reverse_append,
    List.takeWhile_append_dropWhile, List.reverse_reverse]

section Front

variable {p : Char → Bool} (hp : ∀ c, c ≠ '[' → p c = true)

include hp

/-- What comes before the first bracket comes before it as a foreign character too. -/
theorem mem_takeWhile_of_isForeign {front behind : List Char} {d : Char} (hfront : '[' ∉ front)
    (hd : isForeign d = true) : d ∈ (front ++ d :: behind).takeWhile p := by
  have hbefore : ∀ c ∈ front, p c = true := fun c hc =>
    hp c fun hbracket => hfront (hbracket ▸ hc)
  have hpasses : p d = true := by
    refine hp d ?_
    rintro rfl
    cases hd
  rw [List.takeWhile_append_of_pos hbefore, List.takeWhile_cons_of_pos hpasses]
  exact List.mem_append.mpr (.inr (.head _))

/-- Where nothing foreign comes out of folding a text, it is folded character by character. -/
theorem takeWhile_foldGlyphsFrom {text : List Char}
    (h : ∀ c ∈ (foldGlyphsFrom .outside text).takeWhile p, isForeign c = false) :
    (foldGlyphsFrom .outside text).takeWhile p =
      (text.takeWhile fun c => p (foldWidth c)).map foldedChar := by
  have not_foreign (front : List Char) {behind : List Char} (d : Char) (hfront : '[' ∉ front)
      (hd : isForeign d = true)
      (hall : ∀ c ∈ (front ++ d :: behind).takeWhile p, isForeign c = false) : False :=
    Bool.eq_false_iff.mp (hall d (mem_takeWhile_of_isForeign hp hfront hd)) hd
  induction text with
  | nil =>
      rw [foldGlyphsFrom]
      rfl
  | cons c rest ih =>
      rw [foldGlyphsFrom] at h ⊢
      dsimp only at h ⊢
      cases hconnective : connective? (c :: rest) with
      | some found =>
          obtain ⟨symbol, beyond⟩ := found
          rw [hconnective] at h
          rcases mem_of_connective? hconnective with rfl | rfl
          · exact (not_foreign [' '] '&' (by decide) (by decide) h).elim
          · exact (not_foreign [' '] '|' (by decide) (by decide) h).elim
      | none =>
          rw [hconnective] at h
          dsimp only at h ⊢
          rcases foldOutside_cases c with hplain | ⟨d, hd, hforeign⟩
          · rw [hplain, List.singleton_append] at h ⊢
            have hsame : p (foldedChar c) = p (foldWidth c) := by
              rw [foldedChar]
              split
              · rename_i hspace
                rw [hp ' ' (by decide), hspace, hp _ (by decide)]
              · rfl
            cases hpasses : p (foldWidth c) with
            | false => simp [hsame, hpasses]
            | true =>
                rw [List.takeWhile_cons_of_pos (hsame.trans hpasses)] at h ⊢
                rw [List.takeWhile_cons_of_pos (p := fun c => p (foldWidth c)) hpasses,
                  List.map_cons, ih fun d hd => h d (.tail _ hd)]
          · obtain ⟨behind, hfolded⟩ := List.head?_eq_some_iff.mp hd
            rw [hfolded, List.cons_append] at h
            exact (not_foreign [] d (by simp) hforeign h).elim

/-- Moving negations leaves the text in front of them alone: where the operator does not come out,
nothing has changed. -/
theorem takeWhile_rewriteNegation {text rewritten : List Char}
    (h : rewriteNegation text = .ok rewritten) (hfree : '!' ∉ rewritten.takeWhile p) :
    rewritten.takeWhile p = text.takeWhile p := by
  fun_induction rewriteNegation text with
  | case1 => cases h; rfl
  | case2 => cases h
  | case3 text front behind hsplit negated hnegated ih =>
      rw [ih h] at hfree ⊢
      obtain ⟨before, operand, blanks, rfl, rfl⟩ := exists_eq_of_negateLast? hnegated
      obtain rfl := eq_append_of_splitAtMarkerFrom? hsplit
      by_cases hbracket : (before.takeWhile p).length = before.length
      · -- Without a bracket in front of it, the operator is there to be seen.
        refine (hfree ?_).elim
        rw [List.append_assoc, List.takeWhile_append, if_pos hbracket, List.cons_append,
          List.takeWhile_cons_of_pos (hp '!' (by decide))]
        exact List.mem_append.mpr (.inr (.head _))
      · simp only [List.append_assoc, @List.takeWhile_append _ p before, if_neg hbracket]

end Front

/-- White space has no full-width forms. -/
theorem foldWidth_of_isBlank {c : Char} (h : isBlank c = true) : foldWidth c = c :=
  forall_isBlank (P := fun c => foldWidth c = c) (by decide) h

theorem isBlank_of_isTokenGap_foldedChar {c : Char} (h : isTokenGap (foldedChar c) = true) :
    isBlank c = true := by
  rw [foldedChar] at h
  split at h
  · rename_i hspace
    subst hspace
    decide
  · have hcode : (foldWidth c).toNat < 0x21 := by
      simp only [isTokenGap, Bool.or_eq_true, beq_iff_eq] at h
      rcases h with (((heq | heq) | heq) | heq) | heq <;>
        · rw [heq]
          decide
    rw [eq_of_foldWidth_eq rfl (.inl hcode)]
    exact isBlank_of_isTokenGap h

theorem isBlank_of_isWordChar_foldedChar {c : Char} (h : isWordChar (foldedChar c) = true) :
    isBlank c = false := by
  rw [← Bool.not_eq_true]
  intro hblank
  rw [foldedChar] at h
  split at h
  · revert h
    decide
  · rw [foldWidth_of_isBlank hblank, isWordChar_of_isBlank hblank] at h
    cases h

theorem foldedChar_of_isWordChar {c : Char} (h : isWordChar (foldedChar c) = true) :
    foldedChar c = foldWidth c := by
  by_cases hspace : c = '\u3000'
  · subst hspace
    exact absurd h (by decide)
  · rw [foldedChar, if_neg hspace]

/-- A slot that reads as a name up to the first bracket, or up to its end, has that name in it up to
there. Each character of the name is typed as it is or as its full-width form, and there may be
white space around the name. -/
theorem map_foldWidth_trimChars {p : Char → Bool} (hp : ∀ c, c ≠ '[' → p c = true)
    {slot text word : String} (hnormal : normalizeText slot = .ok text)
    (hword : IsLexeme .name word) {before behind : List Char}
    (htext : text.toList.takeWhile p = before ++ word.toList ++ behind)
    (hbefore : ∀ c ∈ before, isTokenGap c = true) (hbehind : ∀ c ∈ behind, isTokenGap c = true) :
    (trimChars (slot.toList.takeWhile fun c => p (foldWidth c))).map foldWidth = word.toList := by
  have hplain : ∀ c ∈ text.toList.takeWhile p, isTokenGap c = true ∨ isWordChar c = true := by
    rw [htext, List.forall_mem_append, List.forall_mem_append]
    exact ⟨⟨fun c hc => .inl (hbefore c hc), fun c hc => .inr (hword.isWordChar_of_mem c hc)⟩,
      fun c hc => .inl (hbehind c hc)⟩
  have hrewritten := normalizeText_eq_ok_iff.mp hnormal
  have hsame := takeWhile_rewriteNegation hp hrewritten fun hmem =>
    (hplain _ hmem).elim (by decide) (by decide)
  rw [hsame] at hplain htext
  have hfolded : (foldGlyphsFrom .outside slot.toList).takeWhile p =
      (slot.toList.takeWhile fun c => p (foldWidth c)).map foldedChar := by
    refine takeWhile_foldGlyphsFrom hp fun c hc => ?_
    rcases hplain c hc with hgap | hpart
    · simp [isForeign, hgap]
    · simp [isForeign, hpart]
  -- What the slot has there is the name and the white space, each before folding.
  obtain ⟨_, typedBehind, hsplit, hfront, rfl⟩ :=
    List.map_eq_append_iff.mp (hfolded.symm.trans htext)
  obtain ⟨typedBefore, typedWord, rfl, rfl, htyped⟩ := List.map_eq_append_iff.mp hfront
  rw [List.forall_mem_map] at hbefore hbehind
  have hparts : ∀ c ∈ typedWord, isWordChar (foldedChar c) = true := fun c hc =>
    hword.isWordChar_of_mem _ (htyped ▸ List.mem_map_of_mem hc)
  rw [hsplit, trimChars_enclosed (fun c hc => isBlank_of_isTokenGap_foldedChar (hbefore c hc))
    (fun c hc => isBlank_of_isWordChar_foldedChar (hparts c hc))
    fun c hc => isBlank_of_isTokenGap_foldedChar (hbehind c hc), ← htyped]
  exact List.map_congr_left fun c hc => (foldedChar_of_isWordChar (hparts c hc)).symm

/-! ## Names told from slots -/

section Slots

variable {slot word : String}

/-- A slot that reads as a name is that name, but for full-width forms and white space. -/
theorem map_foldWidth_trim {span : Span} (h : prepare slot = .ok (.name span word)) :
    (trim slot).toList.map foldWidth = word.toList := by
  obtain ⟨text, hchecked, hparse, -⟩ := prepare_eq_ok_iff.mp h
  have hlexeme : IsLexeme .name word :=
    Expr.ownLegible_of_parseExpr hparse _ (Expr.mem_parts_self _)
  obtain ⟨before, behind, htext, hbefore, hbehind⟩ := exists_eq_of_parseExpr_name hparse
  have hwhole (text : List Char) : text.takeWhile (fun _ => true) = text := by
    induction text with
    | nil => rfl
    | cons c text ih => rw [List.takeWhile_cons_of_pos rfl, ih]
  rw [← hwhole text.toList] at htext
  rw [trim, String.toList_ofList, ← map_foldWidth_trimChars (fun _ _ => rfl)
    (checkedText_eq_ok_iff.mp hchecked).1 hlexeme htext hbefore hbehind, hwhole]

/-- The variable that a slot is written to stands in front of the first bracket of the slot, but for
full-width forms and white space. -/
theorem map_foldWidth_of_assignableName? {e : Expr} (h : prepare slot = .ok e)
    (hword : e.assignableName? = some word) :
    IsLexeme .name word ∧
      (trimChars (slot.toList.takeWhile fun c => foldWidth c != '[')).map foldWidth =
        word.toList := by
  obtain ⟨text, hchecked, hparse, -⟩ := prepare_eq_ok_iff.mp h
  obtain ⟨hlexeme, before, behind, htext, hbefore, hbehind⟩ :=
    exists_takeWhile_eq_of_parseExpr hparse hword
  exact ⟨hlexeme, map_foldWidth_trimChars (fun c hc => bne_iff_ne.mpr hc)
    (checkedText_eq_ok_iff.mp hchecked).1 hlexeme htext hbefore hbehind⟩

end Slots

/-- The text has no full-width forms. -/
def HalfWidth (text : List Char) : Prop :=
  ∀ c ∈ text, foldWidth c = c

instance (text : List Char) : Decidable (HalfWidth text) :=
  decidable_of_iff (text.all (fun c => foldWidth c == c) = true) (by simp [HalfWidth])

namespace HalfWidth

variable {text : List Char}

/-- Folding widths leaves the text as it is, white space around it apart. -/
theorem map_foldWidth_trimChars (h : HalfWidth text) :
    (trimChars text).map foldWidth = trimChars text := by
  obtain ⟨before, behind, htext, -⟩ := exists_eq_append_trimChars text
  rw [HalfWidth, htext, List.forall_mem_append, List.forall_mem_append] at h
  rw [List.map_congr_left (g := id) h.1.2, List.map_id]

/-- In a text that is half-width up to its first bracket, no full-width bracket comes before that
one. -/
theorem takeWhile_eq (h : HalfWidth (text.takeWhile (· != '['))) :
    (text.takeWhile fun c => foldWidth c != '[') = text.takeWhile (· != '[') := by
  induction text with
  | nil => rfl
  | cons c text ih =>
      by_cases hc : c = '['
      · subst hc
        rfl
      · have hpasses : (c != '[') = true := bne_iff_ne.mpr hc
        rw [List.takeWhile_cons, if_pos hpasses] at h
        rw [List.takeWhile_cons, List.takeWhile_cons, h c (.head _), if_pos hpasses,
          if_pos hpasses, ih fun d hd => h d (.tail _ hd)]

end HalfWidth

end BlockCode
