/- # Texts read apart

A text that is put together from pieces is read piece by piece where each piece is closed: its
string literals end in it, and what follows it starts with a break. Then folding treats the piece
as it treats the piece alone, and no token of the whole reaches over its end. So when the whole
reads, the tokens of the whole are those of the pieces, one piece after the other.
-/

import BlockCode.Proofs.Expr.Width

namespace BlockCode

/-! ## Closed texts -/

/-- Whether the string literals of a text are closed, where the text starts at the place. A
full-width quote opens a string when glyphs are folded, but stays as it is and is no token; it may
not stand outside. -/
def closesFrom (place : Quotation) : List Char → Bool
  | [] => place == .outside
  | c :: rest => !(place == .outside && c == '\uff02') && closesFrom (place.after c) rest

/-- Characters that are no quotes leave the place as it is. -/
theorem closesFrom_append {word : List Char} (hword : ∀ c ∈ word, c ≠ '"' ∧ c ≠ '\uff02')
    (text : List Char) : closesFrom .outside (word ++ text) = closesFrom .outside text := by
  induction word with
  | nil => rfl
  | cons c word ih =>
      rw [List.forall_mem_cons] at hword
      obtain ⟨⟨hquote, hwide⟩, hword⟩ := hword
      have hafter : Quotation.outside.after c = .outside := if_neg (by simpa using hquote)
      rw [List.cons_append, closesFrom, hafter, ih hword]
      simp [hwide]

/-- So a text without quotes is closed. -/
theorem closesFrom_of_forall {text : List Char} (h : ∀ c ∈ text, c ≠ '"' ∧ c ≠ '\uff02') :
    closesFrom .outside text = true := by
  have hclosed := closesFrom_append h []
  rwa [List.append_nil] at hclosed

/-- A literal that is closed leads outside. -/
theorem closesFrom_stringTail {text tail : List Char} (h : stringTail text = (tail, true))
    (rest : List Char) : closesFrom .inside (tail ++ rest) = closesFrom .outside rest := by
  fun_induction stringTail text generalizing tail with
  | case1 | case3 | case4 => cases h
  | case2 c text hquote =>
      cases h
      obtain rfl := eq_of_beq hquote
      rfl
  | case5 c hquote hslash d text hfeed tail' closed htext ih =>
      cases h
      have hafter : Quotation.inside.after c = .escaped := if_pos hslash
      rw [List.cons_append, List.cons_append, closesFrom, closesFrom, hafter, ← ih htext]
      rfl
  | case6 c text hquote hslash tail' closed htext ih =>
      cases h
      have hafter : Quotation.inside.after c = .inside := by
        rw [Quotation.after, if_neg hslash, if_neg hquote]
      rw [List.cons_append, closesFrom, hafter, ← ih htext]
      rfl

/-- A token that is no string has no quotes. -/
theorem ne_quote_of_tokenTail? {c : Char} {rest tail : List Char} {kind : TokenKind}
    (h : tokenTail? c rest = some (kind, tail)) (hc : c ≠ '"') :
    ∀ d ∈ c :: tail, d ≠ '"' ∧ d ≠ '\uff02' := by
  intro d hd
  have hchars := mem_of_tokenTail? h hc d hd
  constructor <;>
    · rintro rfl
      revert hchars
      decide +kernel

/-- A text that is read without an unclosed string is closed. -/
theorem closesFrom_of_lexFrom {offset : Nat} {text : List Char} {tokens : List Token}
    (h : lexFrom offset text = .ok tokens)
    (hstrings : ∀ token ∈ tokens, token.kind ≠ .unclosedString) :
    closesFrom .outside text = true := by
  rw [lexFrom_eq_ok_iff] at h
  induction h with
  | nil => rfl
  | @gap offset c text tokens hgap _ ih =>
      have hquotes : ∀ d ∈ [c], d ≠ '"' ∧ d ≠ '\uff02' := by
        rw [List.forall_mem_singleton]
        constructor <;>
          · rintro rfl
            cases hgap
      exact (closesFrom_append hquotes text).trans (ih hstrings)
  | @token offset c tail text kind tokens htail _ ih =>
      rw [List.forall_mem_cons] at hstrings
      have hbehind := ih hstrings.2
      by_cases hc : c = '"'
      · subst hc
        rw [tokenTail?_quote] at htail
        cases hclosed : stringTail (tail ++ text) with
        | mk found closed =>
            rw [hclosed] at htail
            obtain ⟨rfl, rfl⟩ := Prod.mk.inj (Option.some.inj htail)
            cases closed with
            | false => exact absurd rfl hstrings.1
            | true => exact (closesFrom_stringTail hclosed text).trans hbehind
      · exact (closesFrom_append (ne_quote_of_tokenTail? htail hc) text).trans hbehind

/-! ## Folding apart -/

/-- A connective does not reach over a break. -/
theorem connective?_append {text rest : List Char} (hrest : Breaks rest) :
    connective? (text ++ rest) = connective? text := by
  have hand : ∀ c ∈ rest.head?, c ∉ "かつ".toList := hrest.head? (by decide)
  have hor : ∀ c ∈ rest.head?, c ∉ "または".toList := hrest.head? (by decide)
  simp only [connective?, connectives, List.find?_cons, List.find?_nil,
    startsWithWord_append_eq hand, startsWithWord_append_eq hor]

/-- Where a connective is found, the text starts with it. -/
theorem exists_eq_append_of_connective? {c : Char} {rest symbol : List Char} {beyond : Nat}
    (h : connective? (c :: rest) = some (symbol, beyond)) :
    ∃ word ∈ ["かつ".toList, "または".toList],
      word.length = beyond + 1 ∧ c :: rest = word ++ rest.drop beyond := by
  obtain ⟨entry, hfind, heq⟩ := Option.map_eq_some_iff.mp h
  cases heq
  have hstarts : startsWithWord entry.1.toList (c :: rest) = true := by
    simpa using List.find?_some hfind
  have hmem := List.mem_of_find?_eq_some hfind
  obtain ⟨behind, hbehind⟩ := startsWithWord_iff.mp hstarts
  simp only [connectives, List.mem_cons, List.not_mem_nil, or_false] at hmem
  rcases hmem with rfl | rfl
  · cases hbehind
    exact ⟨_, .head _, rfl, rfl⟩
  · cases hbehind
    exact ⟨_, .tail _ (.head _), rfl, rfl⟩

/-- A connective stands in the text as a whole. -/
theorem le_length_of_connective? {c : Char} {rest symbol : List Char} {beyond : Nat}
    (h : connective? (c :: rest) = some (symbol, beyond)) : beyond ≤ rest.length := by
  obtain ⟨word, -, hword, htext⟩ := exists_eq_append_of_connective? h
  have hlength := congrArg List.length htext
  rw [List.length_cons, List.length_append, List.length_drop, hword] at hlength
  omega

/-- What a character inside a string becomes leads where folding goes on. -/
theorem closesFrom_foldInside (c : Char) (text : List Char) :
    closesFrom .inside ((foldInside c).1 ++ text) = closesFrom (foldInside c).2 text := by
  rw [foldInside]
  split
  · next hslash =>
    have hafter : Quotation.inside.after c = .escaped := if_pos hslash
    rw [List.singleton_append, closesFrom, hafter]
    rfl
  · next hslash =>
    split
    · rfl
    · next hquote =>
      have hafter : Quotation.inside.after c = .inside := by
        rw [Quotation.after, if_neg hslash, if_neg]
        intro hc
        rw [eq_of_beq hc] at hquote
        exact hquote (by decide)
      rw [List.singleton_append, closesFrom, hafter]
      rfl

/-- A character outside of strings opens one, or becomes characters that are no quotes. A full-width
quote opens a string and stays as it is. -/
theorem foldOutside_opens_or_plain (c : Char) :
    foldOutside c = (['"'], .inside) ∨ foldOutside c = (['\uff02'], .inside) ∨
      ∃ word, foldOutside c = (word, .outside) ∧ ∀ d ∈ word, d ≠ '"' ∧ d ≠ '\uff02' := by
  rw [foldOutside]
  split
  · exact .inl rfl
  · split
    · next replacement hglyph =>
      have hreplacements : ∀ entry ∈ operatorGlyphs,
          ∀ d ∈ entry.2.toList, d ≠ '"' ∧ d ≠ '\uff02' := by
        decide
      exact .inr (.inr ⟨_, rfl, hreplacements _ (mem_operatorGlyphs hglyph)⟩)
    · split
      · next hquote =>
        rcases eq_quote_of_foldWidth_eq (eq_of_beq hquote) with rfl | rfl
        · exact .inl rfl
        · exact .inr (.inl rfl)
      · next hquote =>
        refine .inr (.inr ⟨_, rfl, ?_⟩)
        rw [List.forall_mem_singleton]
        refine ⟨by simpa using hquote, fun hwide => hquote ?_⟩
        rw [eq_of_foldWidth_eq hwide (by decide)]
        decide

/-- So does what a character outside becomes, unless that is a full-width quote. -/
theorem closesFrom_foldOutside {c : Char} {text : List Char}
    (h : closesFrom .outside ((foldOutside c).1 ++ text) = true) :
    closesFrom (foldOutside c).2 text = true := by
  rcases foldOutside_opens_or_plain c with hopens | hwide | ⟨word, hplain, hword⟩
  · rw [hopens] at h ⊢
    exact h
  · rw [hwide] at h
    cases h
  · rw [hplain] at h ⊢
    rwa [closesFrom_append hword] at h

/-- A closed text is folded by itself in front of a break. -/
theorem foldGlyphsFrom_append {place : Quotation} {text rest : List Char} (hrest : Breaks rest)
    (h : closesFrom place (foldGlyphsFrom place text) = true) :
    foldGlyphsFrom place (text ++ rest) =
      foldGlyphsFrom place text ++ foldGlyphsFrom .outside rest := by
  fun_induction foldGlyphsFrom place text with
  | case1 place =>
      obtain rfl : place = .outside := eq_of_beq h
      rfl
  | case2 c text ih =>
      rw [List.cons_append, foldGlyphsFrom, ih h]
      rfl
  | case3 c text folded next hfolded ih =>
      have hinside := closesFrom_foldInside c (foldGlyphsFrom next text)
      rw [hfolded] at hinside
      rw [List.cons_append, foldGlyphsFrom]
      dsimp only
      rw [hfolded]
      dsimp only
      rw [ih (hinside ▸ h), List.append_assoc]
  | case4 c text symbol beyond hconnective ih =>
      have hquotes : ∀ d ∈ symbol, d ≠ '"' ∧ d ≠ '\uff02' := by
        rcases mem_of_connective? hconnective with rfl | rfl <;> decide
      have hlength := le_length_of_connective? hconnective
      have hagain := @connective?_append (c :: text) rest hrest
      rw [List.cons_append] at hagain ⊢
      rw [foldGlyphsFrom]
      dsimp only
      rw [hagain, hconnective]
      dsimp only
      rw [List.drop_append_of_le_length hlength, ih (closesFrom_append hquotes _ ▸ h),
        List.append_assoc]
  | case5 c text hconnective folded next hfolded ih =>
      have houtside := @closesFrom_foldOutside c (foldGlyphsFrom next text)
      have hagain := @connective?_append (c :: text) rest hrest
      rw [hfolded] at houtside
      rw [List.cons_append] at hagain ⊢
      rw [foldGlyphsFrom]
      dsimp only
      rw [hagain, hconnective]
      dsimp only
      rw [hfolded]
      dsimp only
      rw [ih (houtside h), List.append_assoc]

/-! ## Tokens apart -/

/-- A literal that is closed within a text ends there. -/
theorem stringTail_of_append {text rest tail : List Char} (hclosed : closesFrom .inside text = true)
    (h : stringTail (text ++ rest) = (tail, true)) : stringTail text = (tail, true) := by
  fun_induction stringTail text generalizing tail with
  | case1 => cases hclosed
  | case2 c text hquote =>
      rw [List.cons_append, stringTail.eq_def] at h
      dsimp only at h
      rw [if_pos hquote] at h
      exact h
  | case3 c hquote hslash =>
      rw [eq_of_beq hslash] at hclosed
      cases hclosed
  | case4 c hquote hslash d text hfeed =>
      rw [List.cons_append, List.cons_append, stringTail.eq_def] at h
      dsimp only at h
      rw [if_neg hquote, if_pos hslash, if_pos hfeed] at h
      cases h
  | case5 c hquote hslash d text hfeed tail' closed htext ih =>
      rw [List.cons_append, List.cons_append, stringTail.eq_def] at h
      dsimp only at h
      rw [if_neg hquote, if_pos hslash, if_neg hfeed] at h
      have hafter : Quotation.inside.after c = .escaped := if_pos hslash
      have hbehind : closesFrom .inside text = true := by
        rwa [closesFrom, closesFrom, hafter] at hclosed
      obtain ⟨rfl, hend⟩ := Prod.mk.inj h
      obtain ⟨htail, rfl⟩ := Prod.mk.inj (htext.symm.trans (ih hbehind (Prod.ext rfl hend)))
      rw [htail]
  | case6 c text hquote hslash tail' closed htext ih =>
      rw [List.cons_append, stringTail.eq_def] at h
      dsimp only at h
      rw [if_neg hquote, if_neg hslash] at h
      have hafter : Quotation.inside.after c = .inside := by
        rw [Quotation.after, if_neg hslash, if_neg hquote]
      have hbehind : closesFrom .inside text = true := by
        rwa [closesFrom, hafter] at hclosed
      obtain ⟨rfl, hend⟩ := Prod.mk.inj h
      obtain ⟨htail, rfl⟩ := Prod.mk.inj (htext.symm.trans (ih hbehind (Prod.ext rfl hend)))
      rw [htail]

/-- A token at the front of a closed text in front of a break lies in the text, and the rest of the
text is closed. -/
theorem tokenTail?_of_append {c : Char} {text rest tail : List Char} {kind : TokenKind}
    (hrest : Breaks rest) (hclosed : closesFrom .outside (c :: text) = true)
    (h : tokenTail? c (text ++ rest) = some (kind, tail)) (hkind : kind ≠ .unclosedString) :
    tokenTail? c text = some (kind, tail) ∧
      closesFrom .outside (text.drop tail.length) = true := by
  by_cases hc : c = '"'
  · subst hc
    rw [tokenTail?_quote] at h ⊢
    obtain ⟨⟨found, closed⟩, hfound⟩ : ∃ found, stringTail (text ++ rest) = found := ⟨_, rfl⟩
    rw [hfound] at h
    obtain ⟨rfl, rfl⟩ := Prod.mk.inj (Option.some.inj h)
    cases closed with
    | false => exact absurd rfl hkind
    | true =>
        have htext := stringTail_of_append (show closesFrom .inside text = true from hclosed) hfound
        obtain ⟨behind, rfl⟩ : found <+: text := by
          have hprefix := stringTail_isPrefix text
          rwa [htext] at hprefix
        rw [htext, List.drop_left, ← closesFrom_stringTail htext behind]
        exact ⟨rfl, hclosed⟩
  · rw [tokenTail?_append_eq hc hrest] at h
    refine ⟨h, ?_⟩
    obtain ⟨behind, rfl⟩ := tokenTail?_isPrefix h
    rw [List.drop_left, ← closesFrom_append (ne_quote_of_tokenTail? h hc), List.cons_append]
    exact hclosed

/-- The tokens of a text in front of a break are those of the closed text in front of it, and then
those of the rest. -/
theorem exists_append_of_lexFrom {text rest : List Char} (hrest : Breaks rest)
    (hclosed : closesFrom .outside text = true) {offset : Nat} {tokens : List Token}
    (h : lexFrom offset (text ++ rest) = .ok tokens)
    (hstrings : ∀ token ∈ tokens, token.kind ≠ .unclosedString) :
    ∃ front behind, tokens = front ++ behind ∧ lexFrom offset text = .ok front ∧
      lexFrom (offset + utf8Length text) rest = .ok behind := by
  fun_induction lexFrom offset text generalizing tokens with
  | case1 offset => exact ⟨[], tokens, rfl, rfl, h⟩
  | case2 offset c text hgap ih =>
      rw [List.cons_append, lexFrom, if_pos hgap] at h
      have hquotes : ∀ d ∈ [c], d ≠ '"' ∧ d ≠ '\uff02' := by
        rw [List.forall_mem_singleton]
        constructor <;>
          · rintro rfl
            cases hgap
      rw [utf8Length, ← Nat.add_assoc]
      exact ih ((closesFrom_append hquotes text).symm.trans hclosed) h hstrings
  | case3 offset c text hgap hnone =>
      rw [List.cons_append, lexFrom, if_neg hgap] at h
      cases htoken : tokenTail? c (text ++ rest) with
      | none =>
          rw [htoken] at h
          cases h
      | some found =>
          obtain ⟨kind, tail⟩ := found
          rw [htoken] at h
          obtain ⟨tokens', -, heq⟩ := bind_eq_ok_iff.mp h
          cases heq
          rw [List.forall_mem_cons] at hstrings
          rw [(tokenTail?_of_append hrest hclosed htoken hstrings.1).1] at hnone
          cases hnone
  | case4 offset c text hgap kind tail htail stop =>
      rename_i ih
      rw [List.cons_append, lexFrom, if_neg hgap] at h
      cases htoken : tokenTail? c (text ++ rest) with
      | none =>
          rw [htoken] at h
          cases h
      | some found =>
          obtain ⟨kind', tail'⟩ := found
          rw [htoken] at h
          obtain ⟨tokens', hread, heq⟩ := bind_eq_ok_iff.mp h
          cases heq
          rw [List.forall_mem_cons] at hstrings
          obtain ⟨hsame, hbehind⟩ := tokenTail?_of_append hrest hclosed htoken hstrings.1
          obtain ⟨rfl, rfl⟩ := Prod.mk.inj (Option.some.inj (htail.symm.trans hsame))
          obtain ⟨more, rfl⟩ := tokenTail?_isPrefix htail
          rw [List.append_assoc, List.drop_left] at hread
          rw [List.drop_left] at hbehind ih
          obtain ⟨front, behind, rfl, hfront, hrestRead⟩ := ih hbehind hread hstrings.2
          refine ⟨_ :: front, behind, rfl, ?_, ?_⟩
          · rw [List.drop_left, hfront]
            rfl
          · rw [← List.cons_append, utf8Length_append, ← Nat.add_assoc]
            exact hrestRead

/-! ## Pieces -/

/-- The kind and the text of a token, without its place. -/
def Token.word (token : Token) : TokenKind × String :=
  (token.kind, token.text)

/-- Tokens differ only in their places, wherever a text stands. -/
theorem exists_lexFrom_eq {offset : Nat} {text : List Char} {tokens : List Token}
    (h : lexFrom offset text = .ok tokens) (offset' : Nat) :
    ∃ tokens', lexFrom offset' text = .ok tokens' ∧
      tokens'.map Token.word = tokens.map Token.word := by
  simp only [lexFrom_eq_ok_iff] at h ⊢
  induction h generalizing offset' with
  | nil => exact ⟨[], .nil, rfl⟩
  | @gap offset c text tokens hgap _ ih =>
      obtain ⟨tokens', hread, hwords⟩ := ih (offset' + c.utf8Size)
      exact ⟨tokens', .gap hgap hread, hwords⟩
  | @token offset c tail text kind tokens htail _ ih =>
      obtain ⟨tokens', hread, hwords⟩ := ih (offset' + utf8Length (c :: tail))
      exact ⟨_, .token htail hread, congrArg (_ :: ·) hwords⟩

/-- In front of the rest, the text is read by itself, and as words of which the condition holds. -/
def ReadsApart (text rest : List Char) (P : List (TokenKind × String) → Prop) : Prop :=
  ∀ offset tokens, lexFrom offset (foldGlyphs (text ++ rest)) = .ok tokens →
    (∀ token ∈ tokens, token.kind ≠ .unclosedString) →
    ∃ front behind offset', tokens = front ++ behind ∧
      lexFrom offset' (foldGlyphs rest) = .ok behind ∧ P (front.map Token.word)

/-- Characters that folding knows nothing of stay as they are. -/
theorem foldGlyphs_append_of_forall {word : List Char}
    (hword : ∀ c ∈ word, c ∉ ['か', 'ま'] ∧ foldOutside c = ([c], .outside)) (rest : List Char) :
    foldGlyphs (word ++ rest) = word ++ foldGlyphs rest := by
  induction word with
  | nil => rfl
  | cons c word ih =>
      rw [List.forall_mem_cons] at hword
      obtain ⟨⟨hfirst, hfold⟩, hword⟩ := hword
      have hnone : connective? (c :: (word ++ rest)) = none := by
        simp only [List.mem_cons, List.not_mem_nil, or_false, not_or] at hfirst
        have hand : startsWithWord "かつ".toList (c :: (word ++ rest)) = false := by
          change startsWithWord ('か' :: ['つ']) _ = false
          rw [startsWithWord_cons, beq_eq_false_iff_ne.mpr (Ne.symm hfirst.1), Bool.false_and]
        have hor : startsWithWord "または".toList (c :: (word ++ rest)) = false := by
          change startsWithWord ('ま' :: ['た', 'は']) _ = false
          rw [startsWithWord_cons, beq_eq_false_iff_ne.mpr (Ne.symm hfirst.2), Bool.false_and]
        simp only [connective?, connectives, List.find?_cons, List.find?_nil, hand, hor,
          Option.map_none]
      rw [List.cons_append, foldGlyphs, foldGlyphsFrom]
      dsimp only
      rw [hnone, hfold]
      exact congrArg (c :: ·) (ih hword)

theorem foldGlyphs_nil : foldGlyphs [] = [] := by
  rw [foldGlyphs, foldGlyphsFrom]

theorem Breaks.foldGlyphs {rest : List Char} (h : Breaks rest) : Breaks (foldGlyphs rest) := by
  cases rest with
  | nil =>
      rw [foldGlyphs_nil]
      exact breaks_nil
  | cons c rest =>
      have hall : ∀ c ∈ [' ', '(', ')', '[', ']', ','],
          c ∉ ['か', 'ま'] ∧ foldOutside c = ([c], .outside) := by
        decide
      have hword : ∀ d ∈ [c], d ∉ ['か', 'ま'] ∧ foldOutside d = ([d], .outside) :=
        List.forall_mem_singleton.mpr (hall c (breaks_cons.mp h))
      have hfold := foldGlyphs_append_of_forall hword rest
      rw [List.singleton_append, List.singleton_append] at hfold
      rw [hfold]
      exact breaks_cons.mpr (breaks_cons.mp h)

namespace ReadsApart

variable {text text' rest : List Char} {P Q : List (TokenKind × String) → Prop}

theorem mono (h : ReadsApart text rest P) (hPQ : ∀ words, P words → Q words) :
    ReadsApart text rest Q := by
  intro offset tokens hread hstrings
  obtain ⟨front, behind, offset', htokens, hbehind, hfront⟩ := h offset tokens hread hstrings
  exact ⟨front, behind, offset', htokens, hbehind, hPQ _ hfront⟩

theorem nil (h : P []) : ReadsApart [] rest P :=
  fun offset tokens hread _ => ⟨[], tokens, offset, rfl, hread, h⟩

/-- Two pieces, one after the other. -/
theorem append (h : ReadsApart text (text' ++ rest) P) (h' : ReadsApart text' rest Q) :
    ReadsApart (text ++ text') rest
      fun words => ∃ front behind, words = front ++ behind ∧ P front ∧ Q behind := by
  intro offset tokens hread hstrings
  rw [List.append_assoc] at hread
  obtain ⟨front, behind, offset', rfl, hbehind, hfront⟩ := h offset tokens hread hstrings
  rw [List.forall_mem_append] at hstrings
  obtain ⟨middle, last, offset'', rfl, hlast, hmiddle⟩ := h' offset' behind hbehind hstrings.2
  refine ⟨front ++ middle, last, offset'', by simp, hlast, ?_⟩
  rw [List.map_append]
  exact ⟨_, _, rfl, hfront, hmiddle⟩

/-- A closed text in front of a break. -/
theorem of_closed (hrest : Breaks rest) (hclosed : closesFrom .outside (foldGlyphs text) = true)
    (h : ∀ offset tokens, lexFrom offset (foldGlyphs text) = .ok tokens →
      P (tokens.map Token.word)) :
    ReadsApart text rest P := by
  intro offset tokens hread hstrings
  rw [foldGlyphs, foldGlyphsFrom_append hrest hclosed] at hread
  obtain ⟨front, behind, rfl, hfront, hbehind⟩ :=
    exists_append_of_lexFrom hrest.foldGlyphs hclosed hread hstrings
  exact ⟨front, behind, _, rfl, hbehind, h offset front hfront⟩

/-- A text that is read by itself, in front of a break. -/
theorem of_lex {piece : String} {tokens : List Token} (hrest : Breaks rest)
    (hlex : lex (foldGlyphsText piece) = .ok tokens)
    (hstrings : ∀ token ∈ tokens, token.kind ≠ .unclosedString) :
    ReadsApart piece.toList rest (· = tokens.map Token.word) := by
  rw [lex, foldGlyphsText, String.toList_ofList] at hlex
  refine of_closed hrest (closesFrom_of_lexFrom hlex hstrings) fun offset tokens' hread => ?_
  obtain ⟨tokens'', hread', hwords⟩ := exists_lexFrom_eq hlex offset
  rw [Except.ok.inj (hread.symm.trans hread'), hwords]

/-- A token that folding leaves as it is, and that ends before anything. -/
theorem of_token {c : Char} {tail : List Char} {kind : TokenKind}
    (hfold : ∀ d ∈ c :: tail, d ∉ ['か', 'ま'] ∧ foldOutside d = ([d], .outside))
    (htail : ∀ rest, tokenTail? c (tail ++ rest) = some (kind, tail)) :
    ReadsApart (c :: tail) rest (· = [(kind, String.ofList (c :: tail))]) := by
  intro offset tokens hread _
  rw [foldGlyphs_append_of_forall hfold, LexesBefore.single (htail (foldGlyphs rest))] at hread
  obtain ⟨behind, hbehind, rfl⟩ := map_eq_ok_iff.mp hread
  exact ⟨_, behind, _, rfl, hbehind, rfl⟩

/-- A space is no word. -/
theorem space : ReadsApart [' '] rest (· = []) := by
  intro offset tokens hread _
  rw [foldGlyphs_append_of_forall (by decide), List.singleton_append, lexFrom, if_pos (by decide)]
    at hread
  exact ⟨[], tokens, _, rfl, hread, rfl⟩

/-- The last piece is read to its end. -/
theorem words (h : ReadsApart text [] P) {offset : Nat} {tokens : List Token}
    (hread : lexFrom offset (foldGlyphs text) = .ok tokens)
    (hstrings : ∀ token ∈ tokens, token.kind ≠ .unclosedString) : P (tokens.map Token.word) := by
  obtain ⟨front, behind, offset', rfl, hbehind, hfront⟩ :=
    h offset tokens (by rwa [List.append_nil]) hstrings
  rw [foldGlyphs_nil, lexFrom] at hbehind
  cases hbehind
  rwa [List.append_nil]

end ReadsApart

end BlockCode
