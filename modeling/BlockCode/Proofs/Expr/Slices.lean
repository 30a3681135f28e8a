/- # Tokens of a slice

A text is cut in front of one of its tokens and behind a later one. What lies between is read as
these tokens, at the same offsets. The cut in front does no harm, since tokens do not depend on what
has been read before. The cut behind shortens the text that a token is looked for in, but what is
still there has the token as a whole. So it stays the longest. Only a string that is not closed
depends on its text to the end.

Offsets go up along a text. So a run of tokens lies in the bytes from the start of its first token
to the end of its last one.
-/

import Mathlib.Data.String.Basic
import BlockCode.Proofs.Expr.Apart
import BlockCode.Proofs.Expr.UserCalls

namespace BlockCode

/-! ## Offsets -/

/-- The span in a text that starts elsewhere. -/
def Span.moved (f : Nat → Nat) (span : Span) : Span :=
  ⟨f span.start, f span.stop⟩

/-- The token in a text that starts elsewhere. -/
def Token.moved (f : Nat → Nat) (token : Token) : Token :=
  ⟨token.kind, token.span.moved f, token.text⟩

/-- Further behind, a text has the same tokens further behind. -/
theorem lexFrom_add {offset : Nat} {text : List Char} {tokens : List Token}
    (h : lexFrom offset text = .ok tokens) (n : Nat) :
    lexFrom (offset + n) text = .ok (tokens.map (Token.moved (· + n))) := by
  rw [lexFrom_eq_ok_iff] at h ⊢
  induction h with
  | nil => exact .nil
  | gap hgap _ ih =>
      rw [Nat.add_right_comm] at ih
      exact .gap hgap ih
  | @token offset c tail text kind tokens htail _ ih =>
      have hmoved : (Token.spelled kind offset (c :: tail)).moved (· + n) =
          .spelled kind (offset + n) (c :: tail) := by
        simp only [Token.spelled, Token.moved, Span.moved, Nat.add_right_comm]
      rw [Nat.add_right_comm] at ih
      rw [List.map_cons, hmoved]
      exact .token htail ih

/-- The tokens stand one behind the other, and none is empty. -/
def Ordered (tokens : List Token) : Prop :=
  (∀ token ∈ tokens, token.span.start < token.span.stop) ∧
    tokens.Pairwise fun token next => token.span.stop ≤ next.span.start

/-- The span goes from the start of the first token to the end of the last one. -/
structure Span.Covers (span : Span) (tokens : List Token) : Prop where
  start : tokens.head?.map (·.span.start) = some span.start
  stop : tokens.getLast?.map (·.span.stop) = some span.stop

/-- The span lies in the other one. -/
def Span.Within (span outer : Span) : Prop :=
  outer.start ≤ span.start ∧ span.start < span.stop ∧ span.stop ≤ outer.stop

section Runs

variable {tokens ws us vs : List Token} {token first last : Token} {span outer : Span}

theorem Ordered.of_isInfix (h : Ordered tokens) (hws : ws <:+: tokens) : Ordered ws :=
  ⟨fun token htoken => h.1 token (hws.subset htoken), h.2.sublist hws.sublist⟩

theorem Ordered.append_iff :
    Ordered (us ++ vs) ↔
      Ordered us ∧ Ordered vs ∧ ∀ u ∈ us, ∀ v ∈ vs, u.span.stop ≤ v.span.start := by
  rw [Ordered, Ordered, Ordered, List.forall_mem_append, List.pairwise_append]
  tauto

/-- The tokens lie in the span that covers them. -/
theorem Ordered.within (h : Ordered tokens) (hspan : span.Covers tokens) (htoken : token ∈ tokens) :
    token.span.Within span := by
  refine ⟨?_, h.1 token htoken, ?_⟩
  · cases tokens with
    | nil => cases htoken
    | cons first rest =>
        have hstart : first.span.start = span.start := Option.some.inj hspan.start
        rw [← hstart]
        rcases List.mem_cons.mp htoken with rfl | hrest
        · exact Nat.le_refl _
        · have hfirst := h.1 first (.head _)
          have hnext := List.rel_of_pairwise_cons h.2 hrest
          omega
  · rcases List.eq_nil_or_concat tokens with rfl | ⟨front, last, rfl⟩
    · cases htoken
    · have hstop : last.span.stop = span.stop := by
        have hlast := hspan.stop
        rw [List.concat_eq_append, List.getLast?_concat] at hlast
        exact Option.some.inj hlast
      rw [← hstop]
      rw [List.concat_eq_append] at h htoken
      rcases List.mem_append.mp htoken with hfront | hlast
      · have hbehind := (Ordered.append_iff.mp h).2.2 token hfront last (List.mem_singleton_self _)
        have hlast := h.1 last (List.mem_append_right _ (List.mem_singleton_self _))
        omega
      · obtain rfl := List.mem_singleton.mp hlast
        exact Nat.le_refl _

/-- The ends of a span that covers tokens are those of two of them. -/
theorem Span.Covers.exists_mem (h : span.Covers tokens) :
    (∃ first ∈ tokens, first.span.start = span.start) ∧
      ∃ last ∈ tokens, last.span.stop = span.stop := by
  obtain ⟨first, hfirst, hstart⟩ := Option.map_eq_some_iff.mp h.start
  obtain ⟨last, hlast, hstop⟩ := Option.map_eq_some_iff.mp h.stop
  exact ⟨⟨first, List.mem_of_mem_head? hfirst, hstart⟩,
    ⟨last, List.mem_of_mem_getLast? hlast, hstop⟩⟩

/-- Tokens in a row lie in a row of bytes within those of all tokens. -/
theorem Ordered.covers_within (h : Ordered tokens) (houter : outer.Covers tokens)
    (hws : ws <:+: tokens) (hspan : span.Covers ws) : span.Within outer := by
  obtain ⟨⟨first, hfirst, hstart⟩, last, hlast, hstop⟩ := hspan.exists_mem
  have hfirst' := (h.of_isInfix hws).within hspan hfirst
  have hlast' := h.within houter (hws.subset hlast)
  have hfirst'' := h.within houter (hws.subset hfirst)
  unfold Span.Within at *
  omega

/-- A run of tokens in front of another lies in bytes in front of those of the other. -/
theorem Ordered.covers_le (h : Ordered (us ++ vs)) (hus : span.Covers us) (hws : ws <:+: vs)
    (houter : outer.Covers ws) : span.stop ≤ outer.start := by
  obtain ⟨-, last, hlast, hstop⟩ := hus.exists_mem
  obtain ⟨⟨first, hfirst, hstart⟩, -⟩ := houter.exists_mem
  rw [← hstop, ← hstart]
  exact (Ordered.append_iff.mp h).2.2 last hlast first (hws.subset hfirst)

/-- Two runs one behind the other, with tokens between them or none, are covered together. -/
theorem Span.Covers.append (hus : span.Covers us) (hvs : outer.Covers vs) (ws : List Token) :
    Span.Covers ⟨span.start, outer.stop⟩ (us ++ ws ++ vs) := by
  constructor
  · obtain ⟨first, hfirst, hstart⟩ := Option.map_eq_some_iff.mp hus.start
    rw [List.append_assoc, List.head?_append, hfirst]
    exact congrArg some hstart
  · obtain ⟨last, hlast, hstop⟩ := Option.map_eq_some_iff.mp hvs.stop
    rw [List.getLast?_append, hlast]
    exact congrArg some hstop

theorem Token.covers (token : Token) : token.span.Covers [token] :=
  ⟨rfl, rfl⟩

/-- The least span that covers both of two runs in a row. -/
theorem Span.Covers.merge (hus : span.Covers us) (hvs : outer.Covers vs) (ws : List Token)
    (h : Ordered (us ++ ws ++ vs)) : (span.merge outer).Covers (us ++ ws ++ vs) := by
  have hcovers := hus.append hvs ws
  have hfront : us <:+: us ++ ws ++ vs :=
    ((List.prefix_append us ws).trans (List.prefix_append _ vs)).isInfix
  have hspan := h.covers_within hcovers hfront hus
  have houter := h.covers_within hcovers (List.suffix_append _ vs).isInfix hvs
  have hmerge : span.merge outer = ⟨span.start, outer.stop⟩ := by
    rw [Span.merge, Nat.min_eq_left houter.1, Nat.max_eq_right hspan.2.2]
  rw [hmerge]
  exact hcovers

end Runs

/-! ## Slices -/

theorem utf8Length_eq_utf8Len (text : List Char) : utf8Length text = String.utf8Len text := by
  induction text with
  | nil => rfl
  | cons c text ih => rw [utf8Length, ih, Nat.add_comm, String.utf8Len_cons]

theorem utf8ByteSize_eq_utf8Length (text : String) :
    text.utf8ByteSize = utf8Length text.toList := by
  rw [utf8Length_eq_utf8Len, String.utf8Len_toList]

/-- What stands between two other texts is the slice at the bytes that it takes. -/
theorem extract_of_toList_eq {text : String} {before slice after : List Char}
    (h : text.toList = before ++ slice ++ after) :
    String.Pos.Raw.extract text ⟨utf8Length before⟩ ⟨utf8Length before + utf8Length slice⟩ =
      String.ofList slice := by
  rw [← String.ofList_toList (s := text), h, utf8Length_eq_utf8Len, utf8Length_eq_utf8Len]
  exact String.extract_of_valid before slice after

theorem utf8Length_pos (c : Char) (text : List Char) : 0 < utf8Length (c :: text) := by
  have hc := c.utf8Size_pos
  rw [utf8Length]
  omega

/-- The tokens of a text stand in it one behind the other. -/
theorem ordered_of_lexFrom {offset : Nat} {text : List Char} {tokens : List Token}
    (h : lexFrom offset text = .ok tokens) :
    Ordered tokens ∧ ∀ token ∈ tokens,
      offset ≤ token.span.start ∧ token.span.stop ≤ offset + utf8Length text := by
  rw [lexFrom_eq_ok_iff] at h
  induction h with
  | nil => exact ⟨⟨by simp, .nil⟩, by simp⟩
  | gap hgap _ ih =>
      obtain ⟨hordered, hbounds⟩ := ih
      refine ⟨hordered, fun token htoken => ?_⟩
      have hbound := hbounds token htoken
      rw [utf8Length]
      omega
  | @token offset c tail text kind tokens _ _ ih =>
      obtain ⟨hordered, hbounds⟩ := ih
      have hpos := utf8Length_pos c tail
      rw [← List.cons_append, utf8Length_append, List.forall_mem_cons]
      refine ⟨⟨?_, ?_⟩, ⟨Nat.le_refl _, by dsimp only [Token.spelled]; omega⟩, ?_⟩
      · rw [List.forall_mem_cons]
        exact ⟨by dsimp only [Token.spelled]; omega, hordered.1⟩
      · rw [List.pairwise_cons]
        exact ⟨fun token htoken => (hbounds token htoken).1, hordered.2⟩
      · intro token htoken
        have hbound := hbounds token htoken
        omega

/-- A text may be cut in front of any of its tokens. -/
theorem exists_lexFrom_behind {offset : Nat} {text : List Char} {front tokens : List Token}
    (h : lexFrom offset text = .ok (front ++ tokens)) (hne : tokens ≠ []) :
    ∃ before behind, text = before ++ behind ∧
      lexFrom (offset + utf8Length before) behind = .ok tokens ∧
      tokens.head?.map (·.span.start) = some (offset + utf8Length before) := by
  simp only [lexFrom_eq_ok_iff] at h ⊢
  generalize hwhole : front ++ tokens = whole at h
  induction h generalizing front with
  | nil => exact absurd (List.append_eq_nil_iff.mp hwhole).2 hne
  | @gap offset c text whole hgap _ ih =>
      obtain ⟨before, behind, rfl, hread, hstart⟩ := ih hwhole
      refine ⟨c :: before, behind, rfl, ?_⟩
      rw [utf8Length, ← Nat.add_assoc]
      exact ⟨hread, hstart⟩
  | @token offset c tail text kind whole htail h ih =>
      cases front with
      | nil =>
          obtain rfl : tokens = _ := hwhole
          exact ⟨[], c :: (tail ++ text), rfl, .token htail h, rfl⟩
      | cons token front =>
          obtain ⟨-, rfl⟩ := List.cons.inj hwhole
          obtain ⟨before, behind, rfl, hread, hstart⟩ := ih rfl
          refine ⟨c :: (tail ++ before), behind, by rw [List.cons_append, List.append_assoc], ?_⟩
          rw [← List.cons_append, utf8Length_append, ← Nat.add_assoc]
          exact ⟨hread, hstart⟩

/-- A text may be cut behind any of its tokens. -/
theorem exists_lexFrom_front {offset : Nat} {text : List Char} {tokens behind : List Token}
    (h : lexFrom offset text = .ok (tokens ++ behind)) (hne : tokens ≠ [])
    (hstrings : ∀ token ∈ tokens, token.kind ≠ .unclosedString) :
    ∃ slice after, text = slice ++ after ∧ lexFrom offset slice = .ok tokens ∧
      tokens.getLast?.map (·.span.stop) = some (offset + utf8Length slice) := by
  simp only [lexFrom_eq_ok_iff] at h ⊢
  generalize hwhole : tokens ++ behind = whole at h
  induction h generalizing tokens with
  | nil => exact absurd (List.append_eq_nil_iff.mp hwhole).1 hne
  | @gap offset c text whole hgap _ ih =>
      obtain ⟨slice, after, rfl, hread, hstop⟩ := ih hne hstrings hwhole
      refine ⟨c :: slice, after, rfl, .gap hgap hread, ?_⟩
      rwa [utf8Length, ← Nat.add_assoc]
  | @token offset c tail text kind whole htail _ ih =>
      obtain ⟨token, tokens, rfl⟩ := List.exists_cons_of_ne_nil hne
      obtain ⟨rfl, rfl⟩ := List.cons.inj hwhole
      rw [List.forall_mem_cons] at hstrings
      generalize hstart : offset + utf8Length (c :: tail) = stop at ih
      -- What follows the token in the slice is the slice of the tokens behind it.
      obtain ⟨slice, after, rfl, hslice, hstop⟩ : ∃ slice after, text = slice ++ after ∧
          Lexes stop slice tokens ∧
          (tokens.getLast?.map (·.span.stop)).getD stop = stop + utf8Length slice := by
        cases tokens with
        | nil => exact ⟨[], text, rfl, .nil, rfl⟩
        | cons next tokens =>
            obtain ⟨slice, after, rfl, hslice, hstop⟩ := ih (List.cons_ne_nil _ _) hstrings.2 rfl
            exact ⟨slice, after, rfl, hslice, by rw [hstop]; rfl⟩
      have htail' : tokenTail? c (tail ++ slice) = some (kind, tail) :=
        tokenTail?_of_isPrefix (by rw [← List.append_assoc]; exact List.prefix_append _ _) htail
          hstrings.1 (List.prefix_append _ _)
      refine ⟨c :: (tail ++ slice), after, by rw [List.cons_append, List.append_assoc],
        .token htail' (hstart ▸ hslice), ?_⟩
      rw [← List.cons_append, utf8Length_append, ← Nat.add_assoc, hstart, ← hstop,
        List.getLast?_cons, ← hstart]
      cases tokens.getLast? <;> rfl

/-- Cut in front of one token and behind another, a text gives the tokens between the cuts. -/
theorem exists_lexFrom_slice {offset : Nat} {text : List Char} {tokens ws : List Token}
    (h : lexFrom offset text = .ok tokens) (hws : ws <:+: tokens) (hne : ws ≠ [])
    (hstrings : ∀ token ∈ ws, token.kind ≠ .unclosedString) :
    ∃ before slice after, text = before ++ slice ++ after ∧
      lexFrom (offset + utf8Length before) slice = .ok ws ∧
      Span.Covers ⟨offset + utf8Length before,
        offset + utf8Length before + utf8Length slice⟩ ws := by
  obtain ⟨front, behind, rfl⟩ := hws
  rw [List.append_assoc] at h
  obtain ⟨before, rest, rfl, hread, hstart⟩ :=
    exists_lexFrom_behind h (List.append_ne_nil_of_left_ne_nil hne behind)
  obtain ⟨slice, after, rfl, hslice, hstop⟩ := exists_lexFrom_front hread hne hstrings
  refine ⟨before, slice, after, (List.append_assoc _ _ _).symm, hslice, ?_, hstop⟩
  obtain ⟨token, ws, rfl⟩ := List.exists_cons_of_ne_nil hne
  exact hstart

end BlockCode
