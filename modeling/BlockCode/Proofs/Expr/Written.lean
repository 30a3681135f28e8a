/- # Tokens in the text

The lexer keeps the tokens of a text and drops the white space around them. Put together again
with white space, the tokens are the text, so that what the text holds can be told from its
tokens. In particular, a text that reads as a name is that name between white space, and such a
text reads as the name.
-/

import BlockCode.Proofs.Expr.Meaning

namespace BlockCode

namespace CharClass

/-- The code points of the class, in ascending order. -/
def codes (ranges : CharClass) : List Nat :=
  ranges.flatMap fun (first, last) => List.range' first (last + 1 - first)

theorem mem_codes_of_hasCode {ranges : CharClass} {code : Nat} (h : ranges.hasCode code = true) :
    code ∈ ranges.codes := by
  fun_induction hasCode ranges code with
  | case1 => cases h
  | case2 => cases h
  | case3 code first last rest hfirst hlast =>
      rw [codes, List.flatMap_cons, List.mem_append, List.mem_range'_1]
      exact .inl (by omega)
  | case4 code first last rest hfirst hlast ih =>
      rw [codes, List.flatMap_cons, List.mem_append]
      exact .inr (ih h)

end CharClass

/-- What holds of the code points of white space holds of white space. -/
theorem forall_isBlank {P : Char → Prop} (h : ∀ n ∈ blankClass.codes, P (Char.ofNat n)) {c : Char}
    (hc : isBlank c = true) : P c := by
  rw [← Char.ofNat_toNat c]
  exact h _ (CharClass.mem_codes_of_hasCode hc)

/-- White space is none of the characters that ASCII prints. -/
theorem code_of_isBlank {c : Char} (h : isBlank c = true) : c.toNat < 0x21 ∨ 0x7E < c.toNat :=
  forall_isBlank (P := fun c => c.toNat < 0x21 ∨ 0x7E < c.toNat) (by decide) h

theorem ne_of_isBlank {c d : Char} (h : isBlank c = true) (hd : isBlank d = false) : c ≠ d := by
  rintro rfl
  rw [h] at hd
  cases hd

theorem isWordChar_of_isBlank {c : Char} (h : isBlank c = true) : isWordChar c = false :=
  forall_isBlank (P := fun c => isWordChar c = false) (by decide +kernel) h

/-- What may stand between tokens is white space. -/
theorem isBlank_of_isTokenGap {c : Char} (h : isTokenGap c = true) : isBlank c = true := by
  simp only [isTokenGap, Bool.or_eq_true, beq_iff_eq] at h
  rcases h with (((rfl | rfl) | rfl) | rfl) | rfl <;> decide

/-- No token starts with white space of any script. -/
theorem isBlank_of_tokenTail? {c : Char} {rest tail : List Char} {kind : TokenKind}
    (h : tokenTail? c rest = some (kind, tail)) : isBlank c = false := by
  rw [← Bool.not_eq_true]
  intro hblank
  have hstart : isNameStart c = false := by
    rw [← Bool.not_eq_true]
    intro hstart
    have hword := isWordChar_of_isBlank hblank
    rw [isWordChar, isNamePart_of_isNameStart hstart] at hword
    cases hword
  obtain ⟨hdigit, hquote, hoperator⟩ := forall_isBlank
    (P := fun c => isAsciiDigit c = false ∧ (c == '"') = false ∧
      ∀ entry ∈ operatorWords, entry.1.toList.head? ≠ some c) (by decide +kernel) hblank
  rw [tokenTail?, hstart, hdigit, hquote, if_neg Bool.false_ne_true, if_neg Bool.false_ne_true,
    if_neg Bool.false_ne_true, Option.map_eq_some_iff] at h
  obtain ⟨entry, hfind, -⟩ := h
  obtain ⟨hmem, hword, -⟩ := eq_cons_of_find?_operatorWords hfind
  exact hoperator entry hmem (by rw [hword, List.head?_cons])

/-- From the offset on the text has the tokens: a character is white space, or it starts the longest
token that stands there. -/
inductive Lexes : Nat → List Char → List Token → Prop
  | nil {offset : Nat} : Lexes offset [] []
  | gap {offset : Nat} {c : Char} {text : List Char} {tokens : List Token}
      (hgap : isTokenGap c = true) (h : Lexes (offset + c.utf8Size) text tokens) :
      Lexes offset (c :: text) tokens
  | token {offset : Nat} {c : Char} {tail text : List Char} {kind : TokenKind}
      {tokens : List Token} (htail : tokenTail? c (tail ++ text) = some (kind, tail))
      (h : Lexes (offset + utf8Length (c :: tail)) text tokens) :
      Lexes offset (c :: (tail ++ text)) (.spelled kind offset (c :: tail) :: tokens)

theorem lexFrom_eq_ok_iff {offset : Nat} {text : List Char} {tokens : List Token} :
    lexFrom offset text = .ok tokens ↔ Lexes offset text tokens := by
  constructor
  · intro h
    fun_induction lexFrom offset text generalizing tokens with
    | case1 =>
        cases h
        exact .nil
    | case2 offset c rest hgap ih => exact .gap hgap (ih h)
    | case3 => cases h
    | case4 offset c rest hgap kind tail htail stop =>
        rename_i ih
        obtain ⟨tokens', hrest, heq⟩ := bind_eq_ok_iff.mp h
        cases heq
        obtain ⟨behind, rfl⟩ := tokenTail?_isPrefix htail
        rw [List.drop_left] at hrest ih
        exact .token htail (ih hrest)
  · intro h
    induction h with
    | nil => rw [lexFrom]
    | gap hgap _ ih => rw [lexFrom, if_pos hgap, ih]
    | token htail _ ih =>
        rw [lexFrom, LexesBefore.isTokenGap_of_tokenTail? htail, if_neg Bool.false_ne_true, htail]
        dsimp only
        rw [List.drop_left, ih]
        rfl

/-- The text is made of the tokens' texts in their order, with white space around them. -/
inductive Written : List Token → List Char → Prop
  | nil : Written [] []
  | gap {c : Char} {tokens : List Token} {text : List Char} (hgap : isTokenGap c = true)
      (h : Written tokens text) : Written tokens (c :: text)
  | token (token : Token) {tokens : List Token} {text : List Char} (h : Written tokens text) :
      Written (token :: tokens) (token.text.toList ++ text)

/-- A text is made of its tokens. -/
theorem written_of_lexFrom {offset : Nat} {text : List Char} {tokens : List Token}
    (h : lexFrom offset text = .ok tokens) : Written tokens text := by
  rw [lexFrom_eq_ok_iff] at h
  induction h with
  | nil => exact .nil
  | gap hgap _ ih => exact .gap hgap ih
  | @token offset c tail text kind tokens _ _ ih =>
      have hwritten := ih.token (.spelled kind offset (c :: tail))
      rwa [Token.spelled, String.toList_ofList] at hwritten

namespace Written

/-- A text without tokens is white space. -/
theorem gaps {text : List Char} (h : Written [] text) : ∀ c ∈ text, isTokenGap c = true := by
  generalize htokens : ([] : List Token) = tokens at h
  induction h with
  | nil => simp
  | gap hgap _ ih => exact List.forall_mem_cons.mpr ⟨hgap, ih htokens⟩
  | token => cases htokens

/-- A text of one token is that token between white space. -/
theorem single {token : Token} {text : List Char} (h : Written [token] text) :
    ∃ before behind, text = before ++ token.text.toList ++ behind ∧
      (∀ c ∈ before, isTokenGap c = true) ∧ ∀ c ∈ behind, isTokenGap c = true := by
  generalize htokens : [token] = tokens at h
  induction h with
  | nil => cases htokens
  | @gap c tokens text hgap _ ih =>
      obtain ⟨before, behind, rfl, hbefore, hbehind⟩ := ih htokens
      exact ⟨c :: before, behind, by simp, List.forall_mem_cons.mpr ⟨hgap, hbefore⟩, hbehind⟩
  | token _ h =>
      cases htokens
      exact ⟨[], _, by simp, by simp, h.gaps⟩

/-- What the tokens have stands in the text. -/
theorem mem_of_mem {tokens : List Token} {text : List Char} (h : Written tokens text)
    {token : Token} (htoken : token ∈ tokens) {c : Char} (hc : c ∈ token.text.toList) :
    c ∈ text := by
  induction h with
  | nil => cases htoken
  | gap _ _ ih => exact .tail _ (ih htoken)
  | token first _ ih =>
      rw [List.mem_append]
      rcases List.mem_cons.mp htoken with rfl | htoken
      · exact .inl hc
      · exact .inr (ih htoken)

end Written

/-- White space at both ends of a text without any is trimmed off. -/
theorem trimChars_enclosed {before text behind : List Char}
    (hbefore : ∀ c ∈ before, isBlank c = true) (htext : ∀ c ∈ text, isBlank c = false)
    (hbehind : ∀ c ∈ behind, isBlank c = true) :
    trimChars (before ++ text ++ behind) = text := by
  have hreversed : ∀ c ∈ text.reverse.head?, isBlank c = false := fun c hc =>
    htext c (List.mem_reverse.mp (List.mem_of_head? hc))
  cases text with
  | nil =>
      have hall := List.forall_mem_append.mpr ⟨hbefore, hbehind⟩
      rw [trimChars, List.append_nil, ← List.append_nil (before ++ behind),
        (takeWhile_append_of_head hall (by simp)).2]
      rfl
  | cons c text =>
      have hfirst : ∀ d ∈ (c :: text ++ behind).head?, isBlank d = false := fun d hd =>
        htext d (by cases hd; exact .head _)
      rw [trimChars, List.append_assoc, (takeWhile_append_of_head hbefore hfirst).2,
        List.reverse_append,
        (takeWhile_append_of_head (fun d hd => hbehind d (List.mem_reverse.mp hd)) hreversed).2,
        List.reverse_reverse]

/-- What was trimmed off is white space. -/
theorem exists_eq_append_trimChars (text : List Char) :
    ∃ before behind, text = before ++ trimChars text ++ behind ∧
      (∀ c ∈ before, isBlank c = true) ∧ ∀ c ∈ behind, isBlank c = true := by
  refine ⟨text.takeWhile isBlank,
    ((text.dropWhile isBlank).reverse.takeWhile isBlank).reverse, ?_,
    List.all_eq_true.mp List.all_takeWhile, fun c hc =>
    List.all_eq_true.mp List.all_takeWhile c (List.mem_reverse.mp hc)⟩
  rw [trimChars, List.append_assoc, ← List.reverse_append, List.takeWhile_append_dropWhile,
    List.reverse_reverse, List.takeWhile_append_dropWhile]

/-- What is left of a text when it is trimmed does not start with white space. -/
theorem isBlank_head_trimChars {text : List Char} {c : Char} (h : c ∈ (trimChars text).head?) :
    isBlank c = false := by
  have hprefix : trimChars text <+: text.dropWhile isBlank := by
    rw [trimChars, ← List.reverse_suffix, List.reverse_reverse]
    exact List.dropWhile_suffix isBlank
  obtain ⟨behind, hbehind⟩ := hprefix
  have hfirst := List.head?_dropWhile_not isBlank text
  obtain ⟨rest, htrim⟩ := List.head?_eq_some_iff.mp h
  rw [← hbehind, htrim] at hfirst
  exact hfirst

/-- Nor does it end with white space. -/
theorem isBlank_getLast_trimChars {text : List Char} {c : Char}
    (h : c ∈ (trimChars text).getLast?) : isBlank c = false := by
  have hnot := List.head?_dropWhile_not isBlank (text.dropWhile isBlank).reverse
  rw [trimChars, List.getLast?_reverse] at h
  rw [h] at hnot
  exact hnot

/-- A text with no white space at its ends is trimmed. -/
theorem trimChars_of_ends {text : List Char} (hhead : ∀ c ∈ text.head?, isBlank c = false)
    (hlast : ∀ c ∈ text.getLast?, isBlank c = false) : trimChars text = text := by
  have dropWhile_eq {text : List Char} (h : ∀ c ∈ text.head?, isBlank c = false) :
      text.dropWhile isBlank = text :=
    (takeWhile_append_of_head (List.forall_mem_nil _) h).2
  rw [trimChars, dropWhile_eq hhead, dropWhile_eq fun c hc => hlast c (List.head?_reverse ▸ hc),
    List.reverse_reverse]

/-- Trimming twice is trimming once. -/
theorem trimChars_trimChars (text : List Char) : trimChars (trimChars text) = trimChars text :=
  trimChars_of_ends (fun _ => isBlank_head_trimChars) fun _ => isBlank_getLast_trimChars

/-- A name that was read has only the characters of names and their dots. -/
theorem IsLexeme.isWordChar_of_mem {word : String} (h : IsLexeme .name word) :
    ∀ c ∈ word.toList, isWordChar c = true := by
  obtain ⟨c, tail, hword, htail⟩ := h
  have hname := htail [] breaks_nil
  have hstart : isNameStart c = true := by
    simpa using (worded_of_tokenTail? hname default).name rfl
  rw [hword]
  exact isWordChar_of_tokenTail? hname hstart

/-- So it has no white space in it. -/
theorem IsLexeme.isBlank_of_mem {word : String} (h : IsLexeme .name word) :
    ∀ c ∈ word.toList, isBlank c = false := by
  intro c hc
  rw [← Bool.not_eq_true]
  intro hblank
  have hpart := h.isWordChar_of_mem c hc
  rw [isWordChar_of_isBlank hblank] at hpart
  cases hpart

/-- A name or a number before white space or the end is read as one token. -/
theorem IsLexeme.lexesBefore_gaps {kind : TokenKind} {word : String} (h : IsLexeme kind word)
    (hkind : kind = .name ∨ kind = .number) {rest : List Char}
    (hrest : ∀ c ∈ rest, isTokenGap c = true) (offset : Nat) :
    LexesBefore rest offset word.toList [.spelled kind offset word.toList] := by
  obtain ⟨c, tail, hword, htail⟩ := h
  have htoken := htail [] breaks_nil
  have hworded := worded_of_tokenTail? htoken default
  have hfirst : isNameStart c = true ∨ isAsciiDigit c = true := by
    rcases hkind with hname | hnumber
    · simpa using Or.inl (hworded.name hname)
    · simpa using Or.inr (hworded.number hnumber)
  have hends : EndsWord rest := fun d hd =>
    isWordChar_of_isBlank (isBlank_of_isTokenGap (hrest d (List.mem_of_head? hd)))
  rw [hword]
  exact .single (tokenTail?_append htoken hfirst hends)

/-- White space in front of a text and behind it gives no token. -/
theorem LexesBefore.gaps {rest gaps text : List Char} {offset : Nat} {tokens : List Token}
    (hgaps : ∀ c ∈ gaps, isTokenGap c = true)
    (h : LexesBefore rest (offset + utf8Length gaps) text tokens) :
    LexesBefore rest offset (gaps ++ text) tokens := by
  induction gaps generalizing offset with
  | nil => exact h
  | cons c gaps ih =>
      rw [List.forall_mem_cons] at hgaps
      rw [utf8Length, ← Nat.add_assoc] at h
      exact .gap hgaps.1 (ih hgaps.2 h)

/-- What lexes between white space that the lexer skips lexes with it. -/
theorem lexFrom_enclosed {before text behind : List Char} {tokens : List Token}
    (hbefore : ∀ c ∈ before, isTokenGap c = true) (hbehind : ∀ c ∈ behind, isTokenGap c = true)
    (h : LexesBefore behind (utf8Length before) text tokens) :
    lexFrom 0 (before ++ text ++ behind) = .ok tokens := by
  have hend (offset : Nat) : lexFrom offset behind = .ok [] := by
    have hgaps : LexesBefore [] offset (behind ++ []) [] := .gaps hbehind .nil
    rw [List.append_nil] at hgaps
    exact hgaps.lexFrom_eq_ok
  have hlexes : LexesBefore behind 0 (before ++ text) tokens := by
    refine .gaps hbefore ?_
    rwa [Nat.zero_add]
  rw [hlexes, hend]
  exact congrArg Except.ok (List.append_nil tokens)

/-- Whether the expression has no parts but itself. -/
def Expr.isLeaf : Expr → Bool
  | .number .. | .string .. | .bool .. | .name .. => true
  | _ => false

/-- The leaf that a token is by itself. -/
def Token.leaf? (token : Token) : Option Expr :=
  match token.kind with
  | .number => some (.number token.span token.text)
  | .string => some (.string token.span (literalContents token.text))
  | .trueWord => some (.bool token.span true)
  | .falseWord => some (.bool token.span false)
  | .name => some (.name token.span token.text)
  | _ => none

/-- What a phrase says of its tokens where its tree is a leaf: they are that leaf and nothing
else. -/
def Phrase.LeafAlone : Phrase → List Token → Prop
  | .expr _ e, ws => e.isLeaf = true → ∃ token, ws = [token] ∧ token.leaf? = some e
  | .operators _ base e, ws | .positions base e, ws => e.isLeaf = true → base = e ∧ ws = []
  | .arguments .., _ | .items .., _ => True

theorem Derives.leafAlone {phrase : Phrase} {ws : List Token} (h : Derives phrase ws) :
    phrase.LeafAlone ws := by
  induction h with
  | chain _ _ _ ihfirst ihrest =>
      intro he
      obtain ⟨rfl, rfl⟩ := ihrest he
      rw [List.append_nil]
      exact ihfirst he
  | noOperator | noPosition => exact fun _ => ⟨rfl, rfl⟩
  | operator _ _ _ _ _ ihrest | position _ _ _ _ _ ihrest =>
      intro he
      obtain ⟨rfl, -⟩ := ihrest he
      cases he
  | unsigned _ ih | unraised _ ih => exact ih
  | negate | not | raised | group | userCall =>
      intro he
      cases he
  | number htoken | string htoken | trueWord htoken | falseWord htoken =>
      exact fun _ => ⟨_, rfl, by rw [Token.leaf?, htoken]⟩
  | name htoken _ ih =>
      intro he
      obtain ⟨rfl, rfl⟩ := ih he
      exact ⟨_, rfl, by rw [Token.leaf?, htoken]⟩
  | call _ _ _ _ _ ihrest | builtin _ _ _ _ _ _ ihrest =>
      intro he
      obtain ⟨rfl, -⟩ := ihrest he
      cases he
  | noArgument | arguments | lastItem | nextItem => trivial

/-- A text that reads as a leaf is the leaf between white space. -/
theorem exists_lex_eq_of_isLeaf {text : String} {e : Expr} (h : parseExpr text = .ok e)
    (he : e.isLeaf = true) : ∃ token, lex text = .ok [token] ∧ token.leaf? = some e := by
  obtain ⟨tokens, hlex, hspells⟩ := exists_spells_of_parseExpr h
  obtain ⟨token, rfl, hleaf⟩ := hspells.leafAlone he
  exact ⟨token, hlex, hleaf⟩

/-- A text that reads as a name is the name between white space. -/
theorem exists_eq_of_parseExpr_name {text : String} {span : Span} {word : String}
    (h : parseExpr text = .ok (.name span word)) :
    ∃ before behind, text.toList = before ++ word.toList ++ behind ∧
      (∀ c ∈ before, isTokenGap c = true) ∧ ∀ c ∈ behind, isTokenGap c = true := by
  obtain ⟨token, hlex, hleaf⟩ := exists_lex_eq_of_isLeaf h rfl
  rw [Token.leaf?] at hleaf
  split at hleaf <;> cases hleaf
  exact (written_of_lexFrom hlex).single

/-- A name between white space reads as the name. -/
theorem exists_parseExpr_eq_name {text word : String} {before behind : List Char}
    (hword : IsLexeme .name word) (htext : text.toList = before ++ word.toList ++ behind)
    (hbefore : ∀ c ∈ before, isTokenGap c = true) (hbehind : ∀ c ∈ behind, isTokenGap c = true) :
    ∃ span, parseExpr text = .ok (.name span word) := by
  let token := Token.spelled .name (utf8Length before) word.toList
  have hlex : lex text = .ok [token] := by
    rw [lex, htext]
    exact lexFrom_enclosed hbefore hbehind (hword.lexesBefore_gaps (.inl rfl) hbehind _)
  have hspells : Spells [token] (.name token.span token.text) :=
    (Derives.name rfl .noPosition).of_le (by decide) (by decide)
  refine ⟨token.span, ?_⟩
  rw [parseExpr, lexExpr, hlex]
  have hparse := parseTokens_eq_ok_iff.mpr (reads_parseAbove_lowest_iff_spells.mpr hspells)
  rwa [show token.text = word from String.ofList_toList] at hparse

theorem normalizeText_eq_ok_iff {slot text : String} :
    normalizeText slot = .ok text ↔ rewriteNegation (foldGlyphs slot.toList) = .ok text.toList := by
  rw [normalizeText, bind_eq_ok_iff]
  constructor
  · rintro ⟨rewritten, hrewritten, heq⟩
    cases heq
    rw [String.toList_ofList]
    exact hrewritten
  · intro h
    refine ⟨text.toList, h, ?_⟩
    rw [String.ofList_toList]
    rfl

theorem checkedText_eq_ok_iff {slot text : String} :
    checkedText slot = .ok text ↔
      normalizeText slot = .ok text ∧ bracketErrors [text.toList] = [] := by
  rw [checkedText, bind_eq_ok_iff]
  constructor
  · rintro ⟨text', hnormal, h⟩
    split at h
    · rename_i hbrackets
      cases h
      exact ⟨hnormal, hbrackets⟩
    · cases h
  · rintro ⟨hnormal, hbrackets⟩
    refine ⟨text, hnormal, ?_⟩
    rw [hbrackets]
    rfl

theorem prepare_eq_ok_iff {slot : String} {e : Expr} :
    prepare slot = .ok e ↔
      ∃ text, checkedText slot = .ok text ∧ parseExpr text = .ok e ∧ checkNames e = .ok () := by
  rw [prepare, bind_eq_ok_iff]
  exact exists_congr fun text => and_congr_right fun _ => bind_check_eq_ok_iff

/-- The tokens of a text that was read as a list are none, or derive from the items. -/
theorem exists_tokens_of_parseExprList {text : String} {items : List Expr}
    (h : parseExprList text = .ok items) :
    ∃ tokens, lex text = .ok tokens ∧
      (tokens = [] ∧ items = [] ∨ tokens ≠ [] ∧ Derives (.items items) tokens) := by
  obtain ⟨tokens, hlex, hparse⟩ := bind_eq_ok_iff.mp h
  refine ⟨tokens, mapError_eq_ok_iff.mp hlex, ?_⟩
  cases tokens with
  | nil =>
      cases hparse
      exact .inl ⟨rfl, rfl⟩
  | cons token tokens =>
      obtain ⟨⟨⟨items', rest⟩, hlt⟩, hread, hend⟩ := bind_eq_ok_iff.mp hparse
      obtain ⟨_, hrest, heq⟩ := bind_eq_ok_iff.mp hend
      cases heq
      cases rest with
      | cons first rest => cases hrest
      | nil =>
          obtain ⟨ws, hws, hderives⟩ := derives_of_reads_parseItems ⟨hlt, hread⟩
          rw [List.append_nil] at hws
          exact .inr ⟨List.cons_ne_nil token tokens, hws ▸ hderives⟩

theorem prepareList_eq_ok_iff {slot : String} {items : List Expr} :
    prepareList slot = .ok items ↔ ∃ text, checkedText slot = .ok text ∧
      parseExprList text = .ok items ∧ items.forM checkNames = .ok () := by
  rw [prepareList, bind_eq_ok_iff]
  exact exists_congr fun text => and_congr_right fun _ => bind_check_eq_ok_iff

end BlockCode
