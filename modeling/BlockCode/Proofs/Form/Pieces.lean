/- # Pieces of slots

A slot is put together from plain texts, positions, string literals and calls. A plain text makes
no call, and a string literal is one token. A call is a name and a list of expressions in
parentheses. Each of these is read apart from what stands behind it, so that the calls in a slot
are those that its pieces make.
-/

import BlockCode.Program.Slots
import BlockCode.Proofs.Expr.UserCalls
import BlockCode.Proofs.Form.Plain

namespace BlockCode

/-- Once its glyphs are folded, the text is the name and nothing else. -/
def FoldsToName (text word : String) : Prop :=
  (lex (foldGlyphsText text)).map (List.map Token.word) = .ok [(.name, word)]

instance (text word : String) : Decidable (FoldsToName text word) :=
  inferInstanceAs (Decidable (_ = _))

/-! ## Strings -/

theorem mem_of_enclosed? {first last : Char} {text inner : List Char}
    (h : enclosed? first last text = some inner) : ∀ c ∈ inner, c ∈ text := by
  cases text with
  | nil => cases h
  | cons c rest =>
      rw [enclosed?] at h
      split at h
      · cases h
        exact fun d hd => .tail _ (List.dropLast_subset rest hd)
      · cases h

theorem mem_of_mem_stringContents {operand : List Char} {c : Char}
    (h : c ∈ stringContents operand) : c ∈ operand := by
  rw [stringContents] at h
  cases hquotes : enclosed? '"' '"' operand with
  | some inner =>
      rw [hquotes] at h
      exact mem_of_enclosed? hquotes c h
  | none =>
      rw [hquotes, Option.getD_none] at h
      cases hcorners : enclosed? '「' '」' operand with
      | some inner =>
          rw [hcorners] at h
          exact mem_of_enclosed? hcorners c h
      | none =>
          rw [hcorners] at h
          exact h

/-- How a character of a string operand stands in the literal. -/
def escapedChar (c : Char) : List Char :=
  if c == '\\' || c == '"' || c == '「' || c == '」' then ['\\', c] else [c]

theorem escapedContents_eq (contents : List Char) :
    escapedContents contents = contents.flatMap escapedChar :=
  rfl

theorem quotesChars_escapedChar : QuotesChars escapedChar := by
  intro c
  rw [escapedChar]
  split
  · next hspecial =>
    refine .inl ⟨rfl, ?_⟩
    rintro rfl
    cases hspecial
  · next hplain =>
    simp only [Bool.or_eq_true, beq_iff_eq, not_or] at hplain
    exact .inr ⟨rfl, hplain.1.1.1, hplain.1.1.2⟩

/-- Inside the literal nothing is folded, and nothing but a full-width quote would end it. -/
theorem foldGlyphsFrom_escapedContents {contents : List Char} (h : '\uff02' ∉ contents)
    (text : List Char) : foldGlyphsFrom .inside (escapedContents contents ++ text) =
      escapedContents contents ++ foldGlyphsFrom .inside text := by
  induction contents with
  | nil => rfl
  | cons c contents ih =>
      rw [List.mem_cons, not_or] at h
      rw [escapedContents_eq, List.flatMap_cons, ← escapedContents_eq, List.append_assoc,
        List.append_assoc, ← ih h.2, escapedChar]
      split
      · rw [List.cons_append, List.cons_append, foldGlyphsFrom]
        change '\\' :: foldGlyphsFrom .escaped _ = _
        rw [List.nil_append, foldGlyphsFrom]
        rfl
      · next hplain =>
        simp only [Bool.or_eq_true, beq_iff_eq, not_or] at hplain
        have hquote : foldWidth c ≠ '"' := fun hc =>
          (eq_quote_of_foldWidth_eq hc).elim hplain.1.1.2 (Ne.symm h.1)
        have hkept : foldInside c = ([c], .inside) := by
          simp [foldInside, isCornerBracket, hplain.1.1.1, hplain.1.2, hplain.2, hquote]
        rw [List.cons_append, foldGlyphsFrom]
        dsimp only
        rw [hkept]
        rfl

theorem toList_stringLiteral (operand : String) : (stringLiteral operand).toList =
    '"' :: (escapedContents (stringContents operand.toList) ++ ['"']) := by
  rw [stringLiteral, String.toList_ofList, List.cons_append]

theorem foldGlyphs_quote (text : List Char) :
    foldGlyphs ('"' :: text) = '"' :: foldGlyphsFrom .inside text := by
  rw [foldGlyphs, foldGlyphsFrom]
  rfl

/-- Folding keeps the literal of a string operand. -/
theorem foldGlyphs_stringLiteral {operand : String}
    (h : '\uff02' ∉ stringContents operand.toList) :
    foldGlyphs (stringLiteral operand).toList = (stringLiteral operand).toList := by
  rw [toList_stringLiteral, foldGlyphs_quote, foldGlyphsFrom_escapedContents h, foldGlyphsFrom]
  change _ :: (_ ++ '"' :: foldGlyphsFrom .outside []) = _
  rw [foldGlyphsFrom]

/-- The literal of a string operand is one token. -/
theorem lex_stringLiteral (operand : String) : lex (stringLiteral operand) =
    .ok [.spelled .string 0 (stringLiteral operand).toList] := by
  have htail : tokenTail? '"' (escapedContents (stringContents operand.toList) ++ ['"']) =
      some (.string, escapedContents (stringContents operand.toList) ++ ['"']) := by
    have hstring := stringTail_quoted quotesChars_escapedChar (stringContents operand.toList) []
    rw [← escapedContents_eq] at hstring
    change some (if (stringTail _).2 then _ else _, (stringTail _).1) = _
    rw [hstring]
    rfl
  rw [lex, toList_stringLiteral, lexFrom, if_neg (by decide), htail]
  dsimp only
  rw [List.drop_length, lexFrom]
  rfl

theorem exists_lex_stringLiteral {operand : String} (h : '\uff02' ∉ operand.toList) :
    ∃ token, lex (foldGlyphsText (stringLiteral operand)) = .ok [token] ∧ token.kind = .string := by
  have hcontents : '\uff02' ∉ stringContents operand.toList := fun hmem =>
    h (mem_of_mem_stringContents hmem)
  rw [foldGlyphsText, foldGlyphs_stringLiteral hcontents, String.ofList_toList]
  exact ⟨_, lex_stringLiteral operand, rfl⟩

/-! ## Texts and calls -/

namespace ReadsApart

variable {functions : List FunctionSignature} {text text' rest : List Char} {args : String}
  {exprs : List Expr} {P : List (TokenKind × String) → Prop}

/-- What holds of the words of two pieces, and so of both together. -/
theorem join (happend : ∀ words words', P words → P words' → P (words ++ words'))
    (h : ReadsApart text (text' ++ rest) P) (h' : ReadsApart text' rest P) :
    ReadsApart (text ++ text') rest P := by
  refine (h.append h').mono ?_
  rintro _ ⟨front, behind, rfl, hfront, hbehind⟩
  exact happend front behind hfront hbehind

/-- Pieces between commas, each of which may stand in front of a break. -/
theorem intercalate (happend : ∀ words words', P words → P words' → P (words ++ words'))
    (hnil : P []) (hcomma : P [(.comma, ",")]) {texts : List String}
    (h : ∀ text ∈ texts, ∀ rest, Breaks rest → ReadsApart text.toList rest P) {rest : List Char}
    (hrest : Breaks rest) : ReadsApart (", ".intercalate texts).toList rest P := by
  have hspace (rest : List Char) : ReadsApart [' '] rest P :=
    space.mono fun _ hwords => hwords ▸ hnil
  have hseparator (rest : List Char) : ReadsApart [','] rest P :=
    (of_token (by decide) fun _ => rfl).mono fun _ hwords => hwords ▸ hcomma
  induction texts with
  | nil =>
      exact nil hnil
  | cons text texts ih =>
      rw [List.forall_mem_cons] at h
      cases texts with
      | nil =>
          rw [String.intercalate_singleton]
          exact h.1 rest hrest
      | cons text' texts =>
          have hbehind := (hseparator _).join happend ((hspace _).join happend (ih h.2))
          have hfirst := (h.1 _ (breaks_cons.mpr (by decide))).join happend hbehind
          rw [String.intercalate_cons_cons]
          simpa using hfirst

/-- A plain text makes no call. -/
theorem plain (h : PlainText text) (hrest : Breaks rest) :
    ReadsApart text rest (Harmless functions) :=
  (of_plainText h hrest).mono fun _ hwords => .of_forall_ne fun word hword hkind =>
    hwords word hword (hkind ▸ by decide)

/-- A text that reads as a list of expressions brings the words of that list. -/
theorem items (h : parseExprList (foldGlyphsText args) = .ok exprs) (hrest : Breaks rest) :
    ReadsApart args.toList rest fun words =>
      words = [] ∧ exprs = [] ∨ (Phrase.items exprs).Tallies words := by
  obtain ⟨tokens, hlex, hderives⟩ := exists_tokens_of_parseExprList h
  refine (of_lex hrest hlex ?_).mono ?_
  · rcases hderives with ⟨rfl, -⟩ | ⟨-, hderives⟩
    · exact List.forall_mem_nil _
    · exact hderives.ne_unclosedString
  · rintro _ rfl
    rcases hderives with ⟨rfl, rfl⟩ | ⟨-, hderives⟩
    · exact .inl ⟨rfl, rfl⟩
    · exact .inr hderives.tallies

/-- In parentheses the list is counted as arguments. -/
theorem arguments (h : parseExprList (foldGlyphsText args) = .ok exprs) :
    ReadsApart ('(' :: (args.toList ++ [')'])) rest (Phrase.arguments exprs 0).Tallies := by
  have hopening : ReadsApart ['('] (args.toList ++ [')'] ++ rest) (· = [(.leftParen, "(")]) :=
    of_token (by decide) fun _ => rfl
  have hclosing : ReadsApart [')'] rest (· = [(.rightParen, ")")]) :=
    of_token (by decide) fun _ => rfl
  have hargs := items h (show Breaks ([')'] ++ rest) from breaks_cons.mpr (by decide))
  refine (hopening.append (hargs.append hclosing)).mono ?_
  rintro _ ⟨_, _, rfl, rfl, words, _, rfl, hwords, rfl⟩
  rcases hwords with ⟨rfl, rfl⟩ | hwords
  · exact Phrase.tallies_noArgument 0 "(" ")"
  · exact hwords.arguments 0 "(" ")"

/-- A call of a built-in makes no call but those in its arguments. -/
theorem builtinCall (function : Builtin) (h : parseExprList (foldGlyphsText args) = .ok exprs)
    (hfit : ∀ e ∈ exprs, Line.userCallFaults functions e = []) :
    ReadsApart (function.name ++ "(" ++ args ++ ")").toList rest (Harmless functions) := by
  have hname : PlainText function.name.toList := by
    cases function <;> decide
  have hbreaks : Breaks ('(' :: (args.toList ++ [')']) ++ rest) := breaks_cons.mpr (by decide)
  have hargs : ReadsApart ('(' :: (args.toList ++ [')'])) rest (Harmless functions) :=
    (arguments h).mono fun words hwords => .of_tally hwords.1 hfit
  have hcall := (plain hname hbreaks).join (fun _ _ => Harmless.append) hargs
  simpa using hcall

/-- A name brings itself. -/
theorem name {text word : String} (h : FoldsToName text word) (hrest : Breaks rest) :
    ReadsApart text.toList rest (· = [(.name, word)]) := by
  obtain ⟨tokens, hlex, hwords⟩ := map_eq_ok_iff.mp h
  have hstrings : ∀ token ∈ tokens, token.kind ≠ .unclosedString := by
    intro token htoken hkind
    have hmem := List.mem_map_of_mem (f := Token.word) htoken
    rw [hwords, List.mem_singleton, Token.word, hkind] at hmem
    cases hmem
  exact hwords ▸ of_lex hrest hlex hstrings

/-- A call that fits makes no others but those in its arguments. -/
theorem userCall {name : String} (hname : FoldsToName name name)
    (h : parseExprList (foldGlyphsText args) = .ok exprs)
    (hcall : Line.callFaults functions name exprs.length = [])
    (hfit : ∀ e ∈ exprs, Line.userCallFaults functions e = []) :
    ReadsApart (userMarkerText ++ name ++ "(" ++ args ++ ")").toList rest (Harmless functions) := by
  have hmark (rest : List Char) : ReadsApart userMarkerText.toList rest
      (· = [(.userMarker, userMarkerText)]) :=
    of_token (by decide) fun _ => rfl
  have hbreaks : Breaks ('(' :: (args.toList ++ [')']) ++ rest) := breaks_cons.mpr (by decide)
  have hpieces := (hmark _).append ((ReadsApart.name hname hbreaks).append (arguments h))
  have hfits : ReadsApart (userMarkerText.toList ++ (name.toList ++ '(' :: (args.toList ++ [')'])))
      rest (Harmless functions) := by
    refine hpieces.mono ?_
    rintro _ ⟨_, _, rfl, rfl, _, words, rfl, rfl, hargs⟩
    exact .userCall hargs hcall hfit userMarkerText
  simpa using hfits

/-- A string makes no call, where no full-width quote ends it before its end. -/
theorem stringLiteral {operand : String} (h : '\uff02' ∉ operand.toList) (hrest : Breaks rest) :
    ReadsApart (stringLiteral operand).toList rest (Harmless functions) := by
  obtain ⟨token, hlex, hkind⟩ := exists_lex_stringLiteral h
  refine (of_lex hrest hlex (List.forall_mem_singleton.mpr (by simp [hkind]))).mono ?_
  rintro _ rfl
  refine .of_forall_ne (List.forall_mem_singleton.mpr ?_)
  simp [Token.word, hkind]

end ReadsApart

/-! ## Slots of pieces -/

/-- The slot has no trailing negation, which would move what stands before it. -/
def Unnegated (slot : String) : Prop :=
  splitAtMarkerFrom? .outside (foldGlyphs slot.toList) = none

instance (slot : String) : Decidable (Unnegated slot) :=
  inferInstanceAs (Decidable (_ = _))

section Slots

variable {slot : String} {P : List (TokenKind × String) → Prop}

/-- Without negations reading only folds. -/
theorem Unnegated.eq_of_checkedText (h : Unnegated slot) {text : String}
    (hchecked : checkedText slot = .ok text) : text = foldGlyphsText slot := by
  have hrewritten := normalizeText_eq_ok_iff.mp (checkedText_eq_ok_iff.mp hchecked).1
  have hsame : rewriteNegation (foldGlyphs slot.toList) = .ok (foldGlyphs slot.toList) := by
    rw [rewriteNegation]
    split
    · rfl
    · next hsplit =>
      rw [Unnegated, hsplit] at h
      cases h
  rw [foldGlyphsText, Except.ok.inj (hsame.symm.trans hrewritten), String.ofList_toList]

/-- Where the slot reads, the words that it is read as satisfy `P`. -/
def ReadsTo (slot : String) (P : List (TokenKind × String) → Prop) : Prop :=
  ∀ text tokens, checkedText slot = .ok text → lex text = .ok tokens →
    (∀ token ∈ tokens, token.kind ≠ .unclosedString) → P (tokens.map Token.word)

/-- A slot reads as its pieces do. -/
theorem ReadsTo.of_readsApart (hslot : Unnegated slot) (h : ReadsApart slot.toList [] P) :
    ReadsTo slot P := by
  intro text tokens hchecked hlex hclosed
  rw [hslot.eq_of_checkedText hchecked, lex, foldGlyphsText, String.toList_ofList] at hlex
  exact h.words hlex hclosed

/-- The expression in a slot is spelled by the tokens that it is read as. -/
theorem ReadsTo.exists_spells (h : ReadsTo slot P) {e : Expr} (hread : prepare slot = .ok e) :
    ∃ tokens, Spells tokens e ∧ P (tokens.map Token.word) := by
  obtain ⟨text, hchecked, hparse, -⟩ := prepare_eq_ok_iff.mp hread
  obtain ⟨tokens, hlex, hspells⟩ := exists_spells_of_parseExpr hparse
  exact ⟨tokens, hspells, h text tokens hchecked hlex hspells.ne_unclosedString⟩

/-- So are the expressions in a list slot. -/
theorem ReadsTo.exists_derives (h : ReadsTo slot P) {exprs : List Expr}
    (hread : prepareList slot = .ok exprs) :
    exprs = [] ∨ ∃ tokens, Derives (.items exprs) tokens ∧ P (tokens.map Token.word) := by
  obtain ⟨text, hchecked, hparse, -⟩ := prepareList_eq_ok_iff.mp hread
  obtain ⟨tokens, hlex, ⟨-, hnone⟩ | ⟨-, hderives⟩⟩ := exists_tokens_of_parseExprList hparse
  · exact .inl hnone
  · exact .inr ⟨tokens, hderives, h text tokens hchecked hlex hderives.ne_unclosedString⟩

end Slots

end BlockCode
