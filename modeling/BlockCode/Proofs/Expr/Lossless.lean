/- # Tokens and their text

Nothing is lost when a text is read: the tokens stand in it one behind the other, each with the
slice at its span, and whatever they leave over is white space. Nor does a token depend on what
stands around it. It is the longest one where it stands, so it stays the longest with less behind
it, and a blank ends it. That does not hold of a string that is not closed, which goes on for as
long as it can. But it only stops before the end of its text at a backslash, and no token starts
with that. So such a string is the last token, and nothing stands behind it.
-/

import BlockCode.Proofs.Expr.Slices
import BlockCode.Proofs.Fragment.Joining

namespace BlockCode

/-! ## Strings that are not closed -/

/-- A string that is not closed goes on to the end or to a backslash. -/
theorem exists_eq_append_of_stringTail {text tail : List Char}
    (h : stringTail text = (tail, false)) :
    ∃ rest, text = tail ++ rest ∧ ∀ c ∈ rest.head?, c = '\\' := by
  fun_induction stringTail text generalizing tail with
  | case1 =>
      cases h
      exact ⟨[], rfl, by simp⟩
  | case2 => cases h
  | case3 c hquote hslash =>
      cases h
      exact ⟨[c], rfl, by simpa using hslash⟩
  | case4 c hquote hslash d text hfeed =>
      cases h
      exact ⟨c :: d :: text, rfl, by simpa using hslash⟩
  | case5 c hquote hslash d text hfeed tail' closed hread ih =>
      obtain ⟨rfl, rfl⟩ := Prod.mk.inj h
      obtain ⟨rest, rfl, hrest⟩ := ih hread
      exact ⟨rest, rfl, hrest⟩
  | case6 c text hquote hslash tail' closed hread ih =>
      obtain ⟨rfl, rfl⟩ := Prod.mk.inj h
      obtain ⟨rest, rfl, hrest⟩ := ih hread
      exact ⟨rest, rfl, hrest⟩

namespace Lexes

variable {offset : Nat} {text : List Char} {tokens : List Token}

/-- A text that is read starts with no backslash. -/
theorem head?_ne_backslash (h : Lexes offset text tokens) : ∀ c ∈ text.head?, c ≠ '\\' := by
  have hnone : ∀ rest, tokenTail? '\\' rest = none := fun _ => rfl
  cases h with
  | nil => nofun
  | gap hgap =>
      rintro c hc rfl
      cases hc
      cases hgap
  | token htail =>
      rintro c hc rfl
      cases hc
      rw [hnone] at htail
      cases htail

/-- A string that is not closed ends the text. -/
theorem eq_nil_of_unclosed {c : Char} {tail : List Char} (h : Lexes offset text tokens)
    (htail : tokenTail? c (tail ++ text) = some (.unclosedString, tail)) : text = [] := by
  obtain rfl := eq_quote_of_tokenTail? htail
  rw [tokenTail?_quote] at htail
  cases hread : stringTail (tail ++ text) with
  | mk found closed =>
      rw [hread] at htail
      obtain ⟨hkind, rfl⟩ := Prod.mk.inj (Option.some.inj htail)
      cases closed with
      | true => cases hkind
      | false =>
          obtain ⟨rest, hrest, hslash⟩ := exists_eq_append_of_stringTail hread
          obtain rfl := List.append_cancel_left hrest
          cases text with
          | nil => rfl
          | cons d text => exact absurd (hslash d rfl) (h.head?_ne_backslash d rfl)

/-! ## Tokens by themselves -/

/-- A token does not depend on what is read behind it. -/
theorem tokenTail?_eq {c : Char} {tail : List Char} {kind : TokenKind}
    (h : Lexes offset text tokens) (htail : tokenTail? c (tail ++ text) = some (kind, tail)) :
    tokenTail? c tail = some (kind, tail) := by
  by_cases hkind : kind = .unclosedString
  · subst hkind
    obtain rfl := h.eq_nil_of_unclosed htail
    rwa [List.append_nil] at htail
  · exact tokenTail?_of_isPrefix (List.prefix_append tail text) htail hkind (List.prefix_refl tail)

/-- The text of a token is read as this token. -/
theorem alone (h : Lexes offset text tokens) :
    ∀ token ∈ tokens,
      Lexes 0 token.text.toList [.spelled token.kind 0 token.text.toList] := by
  induction h with
  | nil => nofun
  | gap _ _ ih => exact ih
  | @token offset c tail text kind tokens htail h ih =>
      rw [List.forall_mem_cons]
      refine ⟨?_, ih⟩
      have htail' : tokenTail? c (tail ++ []) = some (kind, tail) := by
        rw [List.append_nil]
        exact h.tokenTail?_eq htail
      have halone : Lexes 0 (c :: (tail ++ [])) [.spelled kind 0 (c :: tail)] := .token htail' .nil
      rwa [List.append_nil, ← String.toList_ofList (l := c :: tail)] at halone

/-- The texts of the tokens are read as these tokens again when a blank stands between them. -/
theorem joined (h : Lexes offset text tokens) (offset' : Nat) :
    ∃ tokens', Lexes offset' (" ".intercalate (tokens.map Token.text)).toList tokens' ∧
      tokens'.map Token.word = tokens.map Token.word := by
  induction h generalizing offset' with
  | nil => exact ⟨[], .nil, rfl⟩
  | gap _ _ ih => exact ih offset'
  | @token offset c tail text kind tokens htail h ih =>
      have halone := h.tokenTail?_eq htail
      have htext : (Token.spelled kind offset (c :: tail)).text.toList = c :: tail :=
        String.toList_ofList
      cases tokens with
      | nil =>
          have hread : Lexes offset' (c :: (tail ++ [])) [.spelled kind offset' (c :: tail)] :=
            .token (by rwa [List.append_nil]) .nil
          refine ⟨[.spelled kind offset' (c :: tail)], ?_, rfl⟩
          rw [List.map_singleton, String.intercalate_singleton, htext]
          rwa [List.append_nil] at hread
      | cons next tokens =>
          have hkind : kind ≠ .unclosedString := by
            rintro rfl
            obtain rfl := h.eq_nil_of_unclosed htail
            cases h
          obtain ⟨tokens', hread, hwords⟩ := ih (offset' + utf8Length (c :: tail) + ' '.utf8Size)
          have hblank (rest : List Char) : Breaks (' ' :: rest) := breaks_cons.mpr (by decide)
          refine ⟨.spelled kind offset' (c :: tail) :: tokens', ?_, congrArg (_ :: ·) hwords⟩
          rw [List.map_cons, List.map_cons, String.intercalate_cons_cons, String.toList_append,
            String.toList_append, htext, List.append_assoc, List.cons_append]
          exact .token (tokenTail?_append_of_closed (hblank _) halone hkind) (.gap rfl hread)

/-! ## Tokens where they stand -/

/-- A token is a slice of the text, at the bytes that the slice takes. -/
theorem exists_slice (h : Lexes offset text tokens) :
    ∀ token ∈ tokens, ∃ before slice after, text = before ++ slice ++ after ∧
      token = .spelled token.kind (offset + utf8Length before) slice := by
  induction h with
  | nil => nofun
  | @gap offset c text tokens hgap _ ih =>
      intro token htoken
      obtain ⟨before, slice, after, rfl, heq⟩ := ih token htoken
      rw [Nat.add_assoc] at heq
      exact ⟨c :: before, slice, after, rfl, heq⟩
  | @token offset c tail text kind tokens htail _ ih =>
      rw [List.forall_mem_cons]
      refine ⟨⟨[], c :: tail, text, rfl, rfl⟩, fun token htoken => ?_⟩
      obtain ⟨before, slice, after, rfl, heq⟩ := ih token htoken
      rw [Nat.add_assoc, ← utf8Length_append] at heq
      exact ⟨c :: tail ++ before, slice, after, by simp, heq⟩

/-- A character in the span of no token is white space. -/
theorem isTokenGap_of_forall_not_mem (h : Lexes offset text tokens) {before behind : List Char}
    {c : Char} (htext : text = before ++ c :: behind)
    (huncovered : ∀ token ∈ tokens, ¬ (token.span.start ≤ offset + utf8Length before ∧
      offset + utf8Length before < token.span.stop)) : isTokenGap c = true := by
  induction h generalizing before with
  | nil => simp at htext
  | @gap offset d text tokens hgap _ ih =>
      cases before with
      | nil =>
          obtain ⟨rfl, -⟩ := List.cons.inj htext
          exact hgap
      | cons d' before =>
          obtain ⟨rfl, rfl⟩ := List.cons.inj htext
          rw [utf8Length, ← Nat.add_assoc] at huncovered
          exact ih rfl huncovered
  | @token offset d tail text kind tokens htail _ ih =>
      obtain ⟨hfirst, hrest⟩ := List.forall_mem_cons.mp huncovered
      rw [← List.cons_append] at htext
      have hbehind {more : List Char} (hmore : before = d :: tail ++ more)
          (htext : text = more ++ c :: behind) : isTokenGap c = true := by
        rw [hmore, utf8Length_append, ← Nat.add_assoc] at hrest
        exact ih htext hrest
      rcases List.append_eq_append_iff.mp htext with ⟨more, hmore, htext⟩ | ⟨more, hmore, htext⟩
      · exact hbehind hmore htext
      · cases more with
        | nil => exact @hbehind [] (by simpa using hmore.symm) htext.symm
        | cons c' more =>
            -- The character stands in the token, which is in front of all others.
            obtain ⟨rfl, -⟩ := List.cons.inj htext
            have hpos := utf8Length_pos c more
            dsimp only [Token.spelled] at hfirst
            rw [hmore, utf8Length_append] at hfirst
            omega

end Lexes

/-! ## The tokens of a text -/

/-- The tokens say what the text says, and say it by themselves. -/
structure Lossless (text : String) (tokens : List Token) : Prop where
  /-- No token is empty, and each stands behind the one in front of it. -/
  ordered : Ordered tokens
  within : ∀ token ∈ tokens, token.span.stop ≤ text.utf8ByteSize
  slice : ∀ token ∈ tokens,
    String.Pos.Raw.extract text ⟨token.span.start⟩ ⟨token.span.stop⟩ = token.text
  /-- Only white space stands outside of the tokens. -/
  gaps : ∀ before c behind, text.toList = before ++ c :: behind →
    (∀ token ∈ tokens,
      ¬ (token.span.start ≤ utf8Length before ∧ utf8Length before < token.span.stop)) →
    c ∈ [' ', '\t', '\r', '\n', '\x0c']
  /-- The text of each token is read as this token. -/
  alone : ∀ token ∈ tokens,
    lex token.text = .ok [⟨token.kind, ⟨0, token.text.utf8ByteSize⟩, token.text⟩]
  /-- With blanks between them, the texts of the tokens are read as tokens of the same kinds and
  texts. -/
  joined : ∃ tokens', lex (" ".intercalate (tokens.map Token.text)) = .ok tokens' ∧
    tokens'.map Token.word = tokens.map Token.word

theorem lossless_of_lex {text : String} {tokens : List Token} (h : lex text = .ok tokens) :
    Lossless text tokens := by
  have hlexes : Lexes 0 text.toList tokens := lexFrom_eq_ok_iff.mp h
  obtain ⟨hordered, hbounds⟩ := ordered_of_lexFrom h
  refine ⟨hordered, fun token htoken => ?_, fun token htoken => ?_,
    fun before c behind htext huncovered => ?_, fun token htoken => ?_, ?_⟩
  · have hbound := (hbounds token htoken).2
    rwa [Nat.zero_add, ← utf8ByteSize_eq_utf8Length] at hbound
  · obtain ⟨before, slice, after, htext, heq⟩ := hlexes.exists_slice token htoken
    rw [heq, Nat.zero_add]
    exact extract_of_toList_eq htext
  · have hgap : isTokenGap c = true :=
      hlexes.isTokenGap_of_forall_not_mem htext (by rwa [Nat.zero_add])
    simpa [isTokenGap, or_assoc] using hgap
  · have halone := lexFrom_eq_ok_iff.mpr (hlexes.alone token htoken)
    rwa [Token.spelled, Nat.zero_add, ← utf8ByteSize_eq_utf8Length, String.ofList_toList]
      at halone
  · obtain ⟨tokens', hread, hwords⟩ := hlexes.joined 0
    exact ⟨tokens', lexFrom_eq_ok_iff.mpr hread, hwords⟩

/-- A dotted name against a number, and a string that goes on to the end. -/
def openEndedTokens : List Token :=
  [⟨.name, ⟨2, 4⟩, "f."⟩, ⟨.number, ⟨4, 5⟩, "1"⟩, ⟨.lessEqual, ⟨5, 7⟩, "<="⟩,
    ⟨.unclosedString, ⟨8, 12⟩, "\"あ"⟩]

theorem lossless_of_lex_openEnded :
    lex "  f.1<=\t\"あ" = .ok openEndedTokens ∧ Lossless "  f.1<=\t\"あ" openEndedTokens := by
  have h : lex "  f.1<=\t\"あ" = .ok openEndedTokens := by decide +kernel
  exact ⟨h, lossless_of_lex h⟩

end BlockCode
