/- # Reading written tokens again

When texts are put together, the lexer sees the end of one against the start of the next. Before
a break a name or a number is the same token as where it was first read, so a text can be read
again piece by piece.
-/

import BlockCode.Proofs.Expr.Tails

namespace BlockCode

/-- The token that the text is at the offset. -/
def Token.spelled (kind : TokenKind) (offset : Nat) (text : List Char) : Token :=
  ⟨kind, ⟨offset, offset + utf8Length text⟩, String.ofList text⟩

theorem Token.kind_spelled (kind : TokenKind) (offset : Nat) (text : List Char) :
    (Token.spelled kind offset text).kind = kind :=
  rfl

/-- The text is read as the tokens when `rest` follows it. -/
def LexesBefore (rest : List Char) (offset : Nat) (text : List Char) (tokens : List Token) :
    Prop :=
  lexFrom offset (text ++ rest) =
    (lexFrom (offset + utf8Length text) rest).map (tokens ++ ·)

theorem utf8Length_append (text text' : List Char) :
    utf8Length (text ++ text') = utf8Length text + utf8Length text' := by
  induction text with
  | nil => simp [utf8Length]
  | cons c text ih => rw [List.cons_append, utf8Length, utf8Length, ih, Nat.add_assoc]

namespace LexesBefore

variable {rest : List Char} {offset : Nat}

theorem nil : LexesBefore rest offset [] [] := by
  rw [LexesBefore, utf8Length, List.nil_append, Nat.add_zero]
  cases lexFrom offset rest <;> rfl

theorem append {text text' : List Char} {tokens tokens' : List Token}
    (h : LexesBefore (text' ++ rest) offset text tokens)
    (h' : LexesBefore rest (offset + utf8Length text) text' tokens') :
    LexesBefore rest offset (text ++ text') (tokens ++ tokens') := by
  rw [LexesBefore] at h h' ⊢
  rw [List.append_assoc, h, h', utf8Length_append, ← Nat.add_assoc]
  cases lexFrom (offset + utf8Length text + utf8Length text') rest with
  | error e => rfl
  | ok tokens'' => rw [Except.map, Except.map, Except.map, List.append_assoc]

/-- With nothing behind it, the text is read as the tokens. -/
theorem lexFrom_eq_ok {text : List Char} {tokens : List Token}
    (h : LexesBefore [] offset text tokens) : lexFrom offset text = .ok tokens := by
  rw [LexesBefore, List.append_nil] at h
  rw [h, lexFrom]
  exact congrArg Except.ok (List.append_nil tokens)

/-- White space gives no token. -/
theorem gap {c : Char} {text : List Char} {tokens : List Token} (hgap : isTokenGap c = true)
    (h : LexesBefore rest (offset + c.utf8Size) text tokens) :
    LexesBefore rest offset (c :: text) tokens := by
  rw [LexesBefore] at h ⊢
  rw [List.cons_append, lexFrom, if_pos hgap, h, utf8Length, Nat.add_assoc]

/-- No token starts with white space. -/
theorem isTokenGap_of_tokenTail? {c : Char} {rest : List Char} {found : TokenKind × List Char}
    (h : tokenTail? c rest = some found) : isTokenGap c = false := by
  rw [← Bool.not_eq_true]
  intro hgap
  simp only [isTokenGap, Bool.or_eq_true, beq_iff_eq] at hgap
  rcases hgap with (((rfl | rfl) | rfl) | rfl) | rfl <;> cases h

/-- The longest token at a place is read first. -/
theorem cons {c : Char} {tail text : List Char} {kind : TokenKind} {tokens : List Token}
    (htail : tokenTail? c (tail ++ (text ++ rest)) = some (kind, tail))
    (h : LexesBefore rest (offset + utf8Length (c :: tail)) text tokens) :
    LexesBefore rest offset (c :: (tail ++ text))
      (.spelled kind offset (c :: tail) :: tokens) := by
  rw [LexesBefore] at h ⊢
  rw [List.cons_append, List.append_assoc, lexFrom, isTokenGap_of_tokenTail? htail,
    if_neg Bool.false_ne_true, htail]
  dsimp only
  rw [List.drop_left, h, ← List.cons_append, utf8Length_append, ← Nat.add_assoc]
  cases lexFrom (offset + utf8Length (c :: tail) + utf8Length text) rest <;> rfl

/-- A token alone. -/
theorem single {c : Char} {tail : List Char} {kind : TokenKind}
    (htail : tokenTail? c (tail ++ rest) = some (kind, tail)) :
    LexesBefore rest offset (c :: tail) [.spelled kind offset (c :: tail)] := by
  have h : LexesBefore rest offset (c :: (tail ++ [])) [.spelled kind offset (c :: tail)] :=
    cons htail nil
  rwa [List.append_nil] at h

/-- A text between two tokens of one character each. -/
theorem enclosed {opening closing : Char} {text : List Char} {tokens : List Token}
    {openingKind closingKind : TokenKind}
    (hopening : ∀ rest, tokenTail? opening rest = some (openingKind, []))
    (hclosing : ∀ rest, tokenTail? closing rest = some (closingKind, []))
    (h : LexesBefore (closing :: rest) (offset + utf8Length [opening]) text tokens) :
    LexesBefore rest offset (opening :: (text ++ [closing]))
      (.spelled openingKind offset [opening] :: (tokens ++
        [.spelled closingKind (offset + utf8Length [opening] + utf8Length text) [closing]])) :=
  cons (hopening _) (append h (single (hclosing _)))

end LexesBefore

/-- The text is one token of the kind wherever a break follows it. -/
def IsLexeme (kind : TokenKind) (text : String) : Prop :=
  ∃ c tail, text.toList = c :: tail ∧
    ∀ rest, Breaks rest → tokenTail? c (tail ++ rest) = some (kind, tail)

/-- A lexeme before a break is read as one token. -/
theorem IsLexeme.lexesBefore {kind : TokenKind} {text : String} (h : IsLexeme kind text)
    {rest : List Char} (hrest : Breaks rest) (offset : Nat) :
    LexesBefore rest offset text.toList [.spelled kind offset text.toList] := by
  obtain ⟨c, tail, htext, htail⟩ := h
  rw [htext]
  exact .single (htail rest hrest)

/-- The names and numbers among the tokens of a text are lexemes. -/
theorem isLexeme_of_mem_lexFrom {offset : Nat} {text : List Char} {tokens : List Token}
    (h : lexFrom offset text = .ok tokens) {token : Token} (htoken : token ∈ tokens)
    (hkind : token.kind = .name ∨ token.kind = .number) : IsLexeme token.kind token.text := by
  have hworded := worded_of_mem_lexFrom h token htoken
  obtain ⟨c, rest, tail, htail, htext⟩ := exists_tokenTail?_of_mem_lexFrom h token htoken
  refine ⟨c, tail, by rw [htext, String.toList_ofList], ?_⟩
  have hc : isNameStart c = true ∨ isAsciiDigit c = true := by
    rcases hkind with hname | hnumber
    · simpa [htext] using Or.inl (hworded.name hname)
    · simpa [htext] using Or.inr (hworded.number hnumber)
  intro rest' hrest'
  exact tokenTail?_append htail hc hrest'.endsWord

/-- Numbers and names have no other characters than those of names and dots. -/
theorem IsLexeme.isNamePart_or_dot_of_mem {kind : TokenKind} {text : String}
    (h : IsLexeme kind text) (hkind : kind = .number ∨ kind = .name) :
    ∀ c ∈ text.toList, isNamePart c = true ∨ c = '.' := by
  obtain ⟨c, tail, htext, htail⟩ := h
  rw [htext]
  exact isNamePart_or_dot_of_tokenTail? (htail [] breaks_nil) hkind

/-- A number is a run of digits, or two of them with a dot between them. -/
theorem IsLexeme.exists_digits {text : String} (h : IsLexeme .number text) :
    ∃ c digits, (∀ d ∈ c :: digits, isAsciiDigit d = true) ∧
      (text.toList = c :: digits ∨ ∃ e fraction, (∀ d ∈ e :: fraction, isAsciiDigit d = true) ∧
        text.toList = c :: digits ++ '.' :: e :: fraction) := by
  obtain ⟨c, tail, htext, htail⟩ := h
  have hnumber := htail [] breaks_nil
  have hdigit : isAsciiDigit c = true := by
    simpa using (worded_of_tokenTail? hnumber default).number rfl
  have hstart : isNameStart c = false := by
    rw [← Bool.not_eq_true]
    intro hstart
    rw [tokenTail?, if_pos hstart] at hnumber
    split at hnumber
    · cases hnumber
    · exact wordKind_ne_number _ (Prod.mk.inj (Option.some.inj hnumber)).1
  rw [tokenTail?, hstart, if_neg Bool.false_ne_true, if_pos hdigit, Option.some.injEq,
    Prod.mk.injEq, List.append_nil] at hnumber
  refine ⟨c, tail.takeWhile isAsciiDigit, List.forall_mem_cons.mpr ⟨hdigit, fun d hd =>
    List.all_eq_true.mp List.all_takeWhile d hd⟩, ?_⟩
  rw [htext]
  rcases numberTail_cases tail with hplain | ⟨fraction, hne, hfraction, hdotted⟩
  · exact .inl (congrArg (c :: ·) (hnumber.2.symm.trans hplain))
  · cases fraction with
    | nil => cases hne
    | cons e fraction =>
        exact .inr ⟨e, fraction, hfraction, congrArg (c :: ·) (hnumber.2.symm.trans hdotted)⟩

/-- A number has digits and at most a dot. -/
theorem IsLexeme.isAsciiDigit_of_mem {text : String} (h : IsLexeme .number text) :
    ∀ c ∈ text.toList, isAsciiDigit c = true ∨ c = '.' := by
  obtain ⟨c, digits, hdigits, htext | ⟨e, fraction, hfraction, htext⟩⟩ := h.exists_digits
  · rw [htext]
    exact fun d hd => .inl (hdigits d hd)
  · rw [htext, List.forall_mem_append]
    refine ⟨fun d hd => .inl (hdigits d hd), ?_⟩
    rw [List.forall_mem_cons]
    exact ⟨.inr rfl, fun d hd => .inl (hfraction d hd)⟩

/-- The characters of a string literal between its quotes: each character as it is, or with a
backslash in front of it. -/
def QuotesChars (quoted : Char → List Char) : Prop :=
  ∀ c, quoted c = ['\\', c] ∧ c ≠ '\n' ∨ quoted c = [c] ∧ c ≠ '\\' ∧ c ≠ '"'

/-- A quoted text is read up to the quote that closes it. -/
theorem stringTail_quoted {quoted : Char → List Char} (h : QuotesChars quoted)
    (contents rest : List Char) :
    stringTail (contents.flatMap quoted ++ '"' :: rest) =
      (contents.flatMap quoted ++ ['"'], true) := by
  induction contents with
  | nil => rw [List.flatMap_nil, List.nil_append, stringTail.eq_def]; rfl
  | cons c contents ih =>
      rw [List.flatMap_cons, List.append_assoc, List.append_assoc]
      rcases h c with ⟨hc, hfeed⟩ | ⟨hc, hslash, hquote⟩
      · rw [hc, List.cons_append, List.cons_append, List.nil_append, stringTail]
        simp [hfeed, ih]
      · rw [hc, List.cons_append, List.nil_append, stringTail.eq_def]
        dsimp only
        rw [if_neg (by simpa using hquote),
          if_neg (by simpa using hslash), ih]
        rfl

/-- Taking the backslashes away gives the text that was quoted. -/
theorem unescape_quoted {quoted : Char → List Char} (h : QuotesChars quoted)
    (contents : List Char) : unescape (contents.flatMap quoted) = contents := by
  induction contents with
  | nil => rfl
  | cons c contents ih =>
      rw [List.flatMap_cons]
      rcases h c with ⟨hc, _⟩ | ⟨hc, hslash, _⟩
      · rw [hc, List.cons_append, List.cons_append, List.nil_append, unescape, if_pos (by rfl),
          ih]
      · rw [hc, List.cons_append, List.nil_append, unescape.eq_def]
        dsimp only
        rw [if_neg (by simpa using hslash), ih]

end BlockCode
