/- # Plain texts

A plain text has no quotes, colons or brackets, however they are typed. Numbers, names and
operators are plain, and so is what a position has in its brackets. Folding keeps a text plain,
and all tokens of a plain text are of plain kinds: neither strings nor brackets nor marks of
calls.
-/

import BlockCode.Form.Operand
import BlockCode.Proofs.Expr.Apart

namespace BlockCode

/-! ## Plain texts -/

/-- What no plain text has: quotes, colons and brackets. -/
def plainExceptions : List Char := ['"', ':', '(', ')', '[', ']']

/-- The character is no quote, colon or bracket, in any form. -/
def isPlainChar (c : Char) : Bool :=
  !isCornerBracket c && !plainExceptions.contains (foldWidth c)

/-- The text has no quotes, colons or brackets. -/
def PlainText (text : List Char) : Prop :=
  ∀ c ∈ text, isPlainChar c = true

instance (text : List Char) : Decidable (PlainText text) :=
  inferInstanceAs (Decidable (∀ c ∈ text, isPlainChar c = true))

theorem plainText_append {text text' : List Char} :
    PlainText (text ++ text') ↔ PlainText text ∧ PlainText text' :=
  List.forall_mem_append

/-- The exceptions are typed as they are or in full width. -/
theorem isPlainChar_of_notMem {c : Char} (hcorner : isCornerBracket c = false)
    (h : c ∉ plainExceptions)
    (hwide : c ∉ plainExceptions.map fun d => Char.ofNat (d.toNat + 0xFEE0)) :
    isPlainChar c = true := by
  have hfolded : foldWidth c ∉ plainExceptions := by
    intro hmem
    rcases eq_or_eq_of_foldWidth_eq (c := c) rfl with hc | hc
    · exact h (hc ▸ hmem)
    · exact hwide (List.mem_map.mpr ⟨_, hmem, hc.symm⟩)
  simp [isPlainChar, hcorner, hfolded]

/-- A class of characters to which no exception belongs is plain. -/
theorem isPlainChar_of_class {p : Char → Bool}
    (hp : ('「' :: '」' :: plainExceptions ++
      plainExceptions.map fun d => Char.ofNat (d.toNat + 0xFEE0)).all (fun c => !p c) = true)
    {c : Char} (hc : p c = true) : isPlainChar c = true := by
  have hnone : c ∉ '「' :: '」' :: plainExceptions ++
      plainExceptions.map fun d => Char.ofNat (d.toNat + 0xFEE0) := fun hmem => by
    have hpc := List.all_eq_true.mp hp c hmem
    rw [hc] at hpc
    cases hpc
  rw [List.cons_append, List.cons_append, List.mem_cons, List.mem_cons, List.mem_append, not_or,
    not_or, not_or] at hnone
  obtain ⟨hleft, hright, hplain, hwide⟩ := hnone
  exact isPlainChar_of_notMem (by simp [isCornerBracket, hleft, hright]) hplain hwide

theorem isPlainChar_of_isNamePart {c : Char} (h : isNamePart c = true) : isPlainChar c = true :=
  isPlainChar_of_class (by decide +kernel) h

theorem isPlainChar_of_isBlank {c : Char} (h : isBlank c = true) : isPlainChar c = true :=
  isPlainChar_of_class (by decide) h

theorem isPlainChar_of_isAsciiDigit {c : Char} (h : isAsciiDigit c = true) : isPlainChar c = true :=
  isPlainChar_of_class (by decide) h

theorem plainText_nameTail (text : List Char) : PlainText (nameTail text) := by
  fun_induction nameTail text with
  | case1 | case5 => exact List.forall_mem_nil _
  | case2 c rest hpart ih => exact List.forall_mem_cons.mpr ⟨isPlainChar_of_isNamePart hpart, ih⟩
  | case3 c rest hpart hdot hstarts ih =>
      rw [eq_of_beq hdot]
      exact List.forall_mem_cons.mpr ⟨by decide, ih⟩
  | case4 c rest hpart hdot hstarts =>
      rw [eq_of_beq hdot]
      exact List.forall_mem_singleton.mpr (by decide)

theorem plainText_wordTail (first : Char) (rest : List Char) : PlainText (wordTail first rest) := by
  rw [wordTail]
  split
  · exact plainText_append.mpr ⟨by decide, plainText_nameTail _⟩
  · exact plainText_nameTail rest

theorem plainText_numberTail (text : List Char) : PlainText (numberTail text) := by
  have hdigits : PlainText (text.takeWhile isAsciiDigit) := fun c hc =>
    isPlainChar_of_isAsciiDigit (List.all_eq_true.mp List.all_takeWhile c hc)
  rcases numberTail_cases text with hplain | ⟨fraction, -, hfraction, hdotted⟩
  · rwa [hplain]
  · rw [hdotted]
    exact plainText_append.mpr ⟨hdigits, List.forall_mem_cons.mpr
      ⟨by decide, fun c hc => isPlainChar_of_isAsciiDigit (hfraction c hc)⟩⟩

/-- The kinds of tokens that are not plain. -/
def TokenKind.exceptions : List TokenKind :=
  [.string, .unclosedString, .userMarker, .leftParen, .rightParen, .leftBracket, .rightBracket]

/-- Tokens are plain, but for strings, brackets and the mark of a call. -/
theorem plainText_of_tokenTail? {c : Char} {rest tail : List Char} {kind : TokenKind}
    (h : tokenTail? c rest = some (kind, tail))
    (hkind : kind ∉ TokenKind.exceptions) : PlainText (c :: tail) := by
  rw [tokenTail?] at h
  split at h
  · next hstart =>
    have hfirst := isPlainChar_of_isNamePart (isNamePart_of_isNameStart hstart)
    split at h
    · cases h
      exact absurd (by decide) hkind
    · obtain ⟨-, rfl⟩ := Prod.mk.inj (Option.some.inj h)
      exact List.forall_mem_cons.mpr ⟨hfirst, plainText_wordTail c rest⟩
  · split at h
    · next hdigit =>
      cases h
      exact List.forall_mem_cons.mpr
        ⟨isPlainChar_of_isAsciiDigit hdigit, plainText_numberTail rest⟩
    · split at h
      · cases h
        refine absurd ?_ hkind
        split <;> decide
      · obtain ⟨entry, hfind, heq⟩ := Option.map_eq_some_iff.mp h
        cases heq
        obtain ⟨hmem, hword, -⟩ := eq_cons_of_find?_operatorWords hfind
        have hoperators : ∀ entry ∈ operatorWords, entry.2 ∉ TokenKind.exceptions →
            PlainText entry.1.toList := by
          decide
        rw [← hword]
        exact hoperators entry hmem hkind

/-- A text is plain if its tokens are. -/
theorem Written.plainText {tokens : List Token} {text : List Char} (h : Written tokens text)
    (htokens : ∀ token ∈ tokens, PlainText token.text.toList) : PlainText text := by
  induction h with
  | nil => exact List.forall_mem_nil _
  | gap hgap _ ih =>
      exact List.forall_mem_cons.mpr
        ⟨isPlainChar_of_isBlank (isBlank_of_isTokenGap hgap), ih htokens⟩
  | token token _ ih =>
      rw [List.forall_mem_cons] at htokens
      exact plainText_append.mpr ⟨htokens.1, ih htokens.2⟩

/-- A text of one plain token is plain. -/
theorem plainText_of_lex {text : String} {token : Token} (h : lex text = .ok [token])
    (hkind : token.kind ∉ TokenKind.exceptions) : PlainText text.toList := by
  refine (written_of_lexFrom h).plainText (List.forall_mem_singleton.mpr ?_)
  obtain ⟨c, rest, tail, htail, htext⟩ := exists_tokenTail?_of_mem_lexFrom h token (.head _)
  rw [htext, String.toList_ofList]
  exact plainText_of_tokenTail? htail hkind

/-- White space around a plain text is plain. -/
theorem plainText_trimChars_iff {text : List Char} :
    PlainText (trimChars text) ↔ PlainText text := by
  obtain ⟨before, behind, htext, hbefore, hbehind⟩ := exists_eq_append_trimChars text
  constructor
  · intro h
    rw [htext]
    exact plainText_append.mpr ⟨plainText_append.mpr
      ⟨fun c hc => isPlainChar_of_isBlank (hbefore c hc), h⟩,
      fun c hc => isPlainChar_of_isBlank (hbehind c hc)⟩
  · intro h
    rw [htext] at h
    exact (plainText_append.mp (plainText_append.mp h).1).2

theorem plainText_of_isSingleToken {text : String} {kind : TokenKind}
    (h : isSingleToken text kind = true) (hkind : kind ∉ TokenKind.exceptions) :
    PlainText text.toList := by
  rw [isSingleToken] at h
  split at h
  · next token hlex =>
    obtain ⟨hkind', -⟩ := Bool.and_eq_true_iff.mp h
    rw [← eq_of_beq hkind'] at hkind
    have hplain := plainText_of_lex hlex hkind
    rw [trim, String.toList_ofList] at hplain
    exact plainText_trimChars_iff.mp hplain
  · cases h

theorem plainText_of_isVariableName {text : String} (h : isVariableName text = true) :
    PlainText text.toList := by
  rw [isVariableName, Bool.and_eq_true, Bool.and_eq_true] at h
  exact plainText_of_isSingleToken h.1.1 (by decide)

theorem plainText_of_isNumberText {text : String} (h : isNumberText text = true) :
    PlainText text.toList := by
  rw [isNumberText, Bool.and_eq_true] at h
  have hdigits := plainText_of_isSingleToken h.1 (by decide)
  rw [String.toList_ofList] at hdigits
  rw [← plainText_trimChars_iff]
  split at hdigits
  · next heq =>
    rw [heq]
    exact List.forall_mem_cons.mpr ⟨by decide, hdigits⟩
  · exact hdigits

theorem plainText_of_isBinaryOperator {text : String} (h : isBinaryOperator text = true) :
    PlainText text.toList := by
  rw [isBinaryOperator] at h
  split at h
  · next token hlex =>
    refine plainText_of_lex hlex fun hmem => ?_
    have hnone : ∀ kind ∈ TokenKind.exceptions, kind.binaryOp? = none := by
      decide
    rw [hnone _ hmem] at h
    cases h
  · cases h

theorem plainText_of_piecesAt {separator : Char} (hseparator : isPlainChar separator = true)
    {text : List Char} (h : ∀ piece ∈ piecesAt separator text, PlainText piece) :
    PlainText text := by
  induction text with
  | nil => exact List.forall_mem_nil _
  | cons c text ih =>
      rw [piecesAt] at h
      split at h
      · next hc =>
        rw [eq_of_beq hc]
        exact List.forall_mem_cons.mpr ⟨hseparator, ih (List.forall_mem_cons.mp h).2⟩
      · split at h
        · next hnone =>
          rw [hnone] at ih
          exact List.forall_mem_cons.mpr
            ⟨h _ (.head _) c (.head _), ih (List.forall_mem_nil _)⟩
        · next piece pieces hpieces =>
          rw [hpieces] at ih
          obtain ⟨hfirst, hrest⟩ := List.forall_mem_cons.mp h
          obtain ⟨hc, hpiece⟩ := List.forall_mem_cons.mp hfirst
          exact List.forall_mem_cons.mpr ⟨hc, ih (List.forall_mem_cons.mpr ⟨hpiece, hrest⟩)⟩

theorem plainText_of_isPositionText {text : String} (h : isPositionText text = true) :
    PlainText (foldGlyphsText text).toList := by
  refine @plainText_of_piecesAt ',' (by decide) _ fun piece hpiece => ?_
  have hitem := List.all_eq_true.mp h (String.ofList piece) (List.mem_map_of_mem hpiece)
  rw [← String.toList_ofList (l := piece)]
  rcases Bool.or_eq_true_iff.mp hitem with hname | hnumber
  · exact plainText_of_isVariableName hname
  · exact plainText_of_isNumberText hnumber

/-! ## Plain texts read apart -/

/-- A plain character becomes characters that are none of the exceptions. -/
theorem exists_foldOutside_of_isPlainChar {c : Char} (h : isPlainChar c = true) :
    ∃ word, foldOutside c = (word, .outside) ∧ ∀ d ∈ word, d ∉ '\uff02' :: plainExceptions := by
  rw [isPlainChar, Bool.and_eq_true, Bool.not_eq_true', Bool.not_eq_true', ← Bool.not_eq_true,
    ← Bool.not_eq_true, List.contains_iff_mem] at h
  obtain ⟨hcorner, hfolded⟩ := h
  have hquote : foldWidth c ≠ '"' := fun hc => hfolded (hc ▸ by decide)
  rw [foldOutside, if_neg hcorner]
  split
  · next replacement hglyph =>
    have hreplacements : ∀ entry ∈ operatorGlyphs,
        ∀ d ∈ entry.2.toList, d ∉ '\uff02' :: plainExceptions := by
      decide
    exact ⟨_, rfl, hreplacements _ (mem_operatorGlyphs hglyph)⟩
  · rw [if_neg (by simpa using hquote)]
    refine ⟨_, rfl, List.forall_mem_singleton.mpr ?_⟩
    have hwide : foldWidth c ≠ '\uff02' := fun hwide => by
      have hc := eq_of_foldWidth_eq hwide (by decide)
      subst hc
      exact absurd hwide (by decide)
    exact fun hmem => (List.mem_cons.mp hmem).elim hwide hfolded

/-- Folding a plain text makes none of the exceptions. -/
theorem PlainText.notMem_foldGlyphs {text : List Char} (h : PlainText text) :
    ∀ d ∈ foldGlyphs text, d ∉ '\uff02' :: plainExceptions := by
  rw [foldGlyphs]
  generalize hplace : Quotation.outside = place
  fun_induction foldGlyphsFrom place text with
  | case1 => exact List.forall_mem_nil _
  | case2 | case3 => cases hplace
  | case4 c text symbol beyond hconnective ih =>
      have hsymbol : ∀ d ∈ symbol, d ∉ '\uff02' :: plainExceptions := by
        rcases mem_of_connective? hconnective with rfl | rfl <;> decide
      have hrest : PlainText (text.drop beyond) := fun d hd =>
        h d (.tail _ (List.mem_of_mem_drop hd))
      exact List.forall_mem_append.mpr ⟨hsymbol, ih hrest rfl⟩
  | case5 c text hconnective folded next hfolded ih =>
      obtain ⟨hc, htext⟩ := List.forall_mem_cons.mp h
      obtain ⟨word, hword, hplain⟩ := exists_foldOutside_of_isPlainChar hc
      obtain ⟨rfl, rfl⟩ := Prod.mk.inj (hfolded.symm.trans hword)
      exact List.forall_mem_append.mpr ⟨hplain, ih htext rfl⟩

/-- A token that is not plain has one of the exceptions. -/
theorem exists_mem_plainExceptions {c : Char} {rest tail : List Char} {kind : TokenKind}
    (h : tokenTail? c rest = some (kind, tail)) (hkind : kind ∈ TokenKind.exceptions) :
    ∃ d ∈ c :: tail, d ∈ plainExceptions := by
  rw [tokenTail?] at h
  split at h
  · split at h
    · cases h
      exact ⟨':', List.mem_cons_of_mem _ (by decide), by decide⟩
    · have hwords : ∀ kind ∈ [TokenKind.trueWord, .falseWord, .and, .or, .not, .name],
          kind ∉ TokenKind.exceptions := by
        decide
      obtain ⟨rfl, -⟩ := Prod.mk.inj (Option.some.inj h)
      exact absurd hkind (hwords _ (wordKind_mem _))
  · split at h
    · cases h
      exact absurd hkind (by decide)
    · split at h
      · next hquote =>
        exact ⟨c, .head _, eq_of_beq hquote ▸ by decide⟩
      · obtain ⟨entry, hfind, heq⟩ := Option.map_eq_some_iff.mp h
        cases heq
        obtain ⟨hmem, hword, -⟩ := eq_cons_of_find?_operatorWords hfind
        have hoperators : ∀ entry ∈ operatorWords, entry.2 ∈ TokenKind.exceptions →
            ∃ d ∈ entry.1.toList, d ∈ plainExceptions := by
          decide
        rw [← hword]
        exact hoperators entry hmem hkind

/-- A plain text brings plain words. -/
theorem ReadsApart.of_plainText {text rest : List Char} (h : PlainText text)
    (hrest : Breaks rest) :
    ReadsApart text rest fun words => ∀ word ∈ words, word.1 ∉ TokenKind.exceptions := by
  have hfolded := h.notMem_foldGlyphs
  have hquotes : ∀ d ∈ foldGlyphs text, d ≠ '"' ∧ d ≠ '\uff02' := fun d hd =>
    ⟨fun hquote => hfolded d hd (hquote ▸ by decide), fun hwide => hfolded d hd (hwide ▸ .head _)⟩
  refine .of_closed hrest (closesFrom_of_forall hquotes) fun offset tokens hread => ?_
  rw [List.forall_mem_map]
  intro token htoken hkind
  obtain ⟨c, _, tail, htail, htext⟩ := exists_tokenTail?_of_mem_lexFrom hread token htoken
  obtain ⟨d, hd, hexception⟩ := exists_mem_plainExceptions htail hkind
  refine hfolded d ((written_of_lexFrom hread).mem_of_mem htoken ?_) (.tail _ hexception)
  rwa [htext, String.toList_ofList]

end BlockCode
