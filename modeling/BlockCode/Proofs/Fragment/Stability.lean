/- # Normalizing twice

Normalizing folds the glyphs of a text and then moves its negations. Moving is done last, and what
it writes is not folded again. It writes nothing that folding would change by itself: the operator
is an ASCII character, and everything else stays what it was and where it was with respect to
quotes. But it takes the marker away, and the characters on both sides of the marker then stand next
to each other. If they are parts of a connective, the connective is one that folding has not seen.

So a normalized text is left alone when it is normalized again exactly when it has no connective
outside of strings. None can arise where no letter that goes on in a connective stands directly
behind the last letter of a marker.
-/

import Mathlib.Data.List.Chain
import BlockCode.Proofs.Fragment.Negations
import BlockCode.Proofs.Fragment.Typing

namespace BlockCode

/-! ## Characters that folding keeps -/

/-- Folding keeps the character at the place as it is. -/
def Quotation.Keeps : Quotation → Char → Prop
  | .outside, c => (foldOutside c).1 = [c]
  | .inside, c => (foldInside c).1 = [c]
  | .escaped, _ => True

/-- Folding keeps each character of the text, which starts at the place. Whether some of them stand
together as a connective is not asked. -/
def KeptFrom (place : Quotation) : List Char → Prop
  | [] => True
  | c :: rest => place.Keeps c ∧ KeptFrom (place.next isQuote c) rest

/-- A connective stands outside of strings in the text, which starts at the place. Strings are those
that folding reads. -/
def ConnectsFrom (place : Quotation) (text : List Char) : Prop :=
  ∃ front behind, text = front ++ behind ∧ place.past isQuote front = .outside ∧
    (connective? behind).isSome = true

section

variable {place : Quotation} {c : Char} {text rest : List Char}

theorem not_connectsFrom_nil : ¬ ConnectsFrom place [] := by
  rintro ⟨front, behind, htext, -, hconnective⟩
  obtain ⟨rfl, rfl⟩ := List.append_eq_nil_iff.mp htext.symm
  cases hconnective

theorem connectsFrom_cons : ConnectsFrom place (c :: text) ↔
    (place = .outside ∧ (connective? (c :: text)).isSome = true) ∨
      ConnectsFrom (place.next isQuote c) text := by
  constructor
  · rintro ⟨front, behind, htext, hplace, hconnective⟩
    cases front with
    | nil =>
        obtain rfl : c :: text = behind := htext
        exact .inl ⟨hplace, hconnective⟩
    | cons d front =>
        obtain ⟨rfl, htail⟩ := List.cons.inj htext
        exact .inr ⟨front, behind, htail, hplace, hconnective⟩
  · rintro (⟨hplace, hconnective⟩ | ⟨front, behind, rfl, hplace, hconnective⟩)
    · exact ⟨[], c :: text, rfl, hplace, hconnective⟩
    · exact ⟨c :: front, behind, rfl, hplace, hconnective⟩

/-- A text without connectives whose characters are kept is kept as a whole. -/
theorem foldGlyphsFrom_eq_self (hkept : KeptFrom place text) (hfree : ¬ ConnectsFrom place text) :
    foldGlyphsFrom place text = text := by
  induction text generalizing place with
  | nil => exact foldGlyphsFrom_nil place
  | cons c rest ih =>
      rw [connectsFrom_cons, not_or, not_and] at hfree
      obtain ⟨hkeeps, hrest⟩ := hkept
      have htail := ih hrest hfree.2
      cases place with
      | outside =>
          have hnone : connective? (c :: rest) = none := by simpa using hfree.1 rfl
          have hkeeps : (foldOutside c).1 = [c] := hkeeps
          rw [foldGlyphsFrom_outside hnone, foldOutside_place, hkeeps, htail]
          rfl
      | inside =>
          have hkeeps : (foldInside c).1 = [c] := hkeeps
          rw [foldGlyphsFrom_inside, foldInside_place, hkeeps, htail]
          rfl
      | escaped =>
          rw [foldGlyphsFrom_escaped]
          exact congrArg (c :: ·) htail

theorem keptFrom_append : KeptFrom place (text ++ rest) ↔
    KeptFrom place text ∧ KeptFrom (place.past isQuote text) rest := by
  induction text generalizing place with
  | nil => exact (true_and _).to_iff.symm
  | cons c text ih =>
      rw [List.cons_append, KeptFrom, KeptFrom, ih, and_assoc]
      rfl

theorem keptFrom_word {word : List Char} (hword : ∀ d ∈ word, foldOutside d = ([d], .outside)) :
    KeptFrom .outside (word ++ text) ↔ KeptFrom .outside text := by
  induction word with
  | nil => rfl
  | cons d word ih =>
      rw [List.forall_mem_cons] at hword
      have hnext : Quotation.outside.next isQuote d = .outside := by
        rw [← foldOutside_place, hword.1]
      have hkeeps : Quotation.outside.Keeps d := congrArg Prod.fst hword.1
      rw [List.cons_append, KeptFrom, hnext, ih hword.2, and_iff_right hkeeps]

/-- What folding wrote, it keeps. -/
theorem keptFrom_foldGlyphsFrom (place : Quotation) (text : List Char) :
    KeptFrom place (foldGlyphsFrom place text) := by
  fun_induction foldGlyphsFrom place text with
  | case1 place => trivial
  | case2 c rest ih => exact ⟨trivial, ih⟩
  | case3 c rest folded next hfolded ih =>
      obtain ⟨d, hinside, hagain, -⟩ := foldInside_outcome c
      rw [hfolded] at hinside hagain
      obtain rfl : folded = [d] := congrArg Prod.fst hinside
      have hnext : Quotation.inside.next isQuote d = next := by
        rw [← foldInside_place, hagain]
      exact ⟨congrArg Prod.fst hagain, hnext ▸ ih⟩
  | case4 c rest symbol beyond hconnective ih =>
      exact (keptFrom_word fun d hd => (foldOutside_symbol hconnective d hd).1).mpr ih
  | case5 c rest hconnective folded next hfolded ih =>
      rcases foldOutside_outcome c with hquote | ⟨rfl, hwide⟩ | ⟨word, hplain, -, hword⟩
      · obtain ⟨rfl, rfl⟩ := Prod.mk.inj (hfolded.symm.trans hquote)
        exact ⟨rfl, ih⟩
      · obtain ⟨rfl, rfl⟩ := Prod.mk.inj (hfolded.symm.trans hwide)
        exact ⟨rfl, ih⟩
      · obtain ⟨rfl, rfl⟩ := Prod.mk.inj (hfolded.symm.trans hplain)
        exact (keptFrom_word fun d hd => (hword d hd).1).mpr ih

end

/-! ## Characters that folding takes away -/

section

variable {p : Char → Bool} (hp : ∀ d : Char, d.toNat < 128 → p d = false)

include hp

theorem countP_eq_zero_of_forall_lt {word : List Char} (h : ∀ d ∈ word, d.toNat < 128) :
    word.countP p = 0 :=
  List.countP_eq_zero.mpr fun d hd => by simp [hp d (h d hd)]

theorem countP_foldOutside_le (c : Char) : (foldOutside c).1.countP p ≤ [c].countP p := by
  rcases foldOutside_outcome c with hquote | ⟨-, hwide⟩ | ⟨word, hplain, -, hword⟩
  · rw [hquote, countP_eq_zero_of_forall_lt hp (by decide)]
    exact Nat.zero_le _
  · rw [hwide]
  · rw [hplain]
    by_cases hsame : word = [c]
    · rw [hsame]
    · rw [countP_eq_zero_of_forall_lt hp fun d hd => (hword d hd).2.resolve_right hsame]
      exact Nat.zero_le _

theorem countP_foldInside_le (c : Char) : (foldInside c).1.countP p ≤ [c].countP p := by
  rw [foldInside]
  split
  · exact le_rfl
  · split
    · rw [countP_eq_zero_of_forall_lt hp (by decide)]
      exact Nat.zero_le _
    · exact le_rfl

/-- All characters that folding adds are ASCII characters. -/
theorem countP_foldGlyphsFrom_le (place : Quotation) (text : List Char) :
    (foldGlyphsFrom place text).countP p ≤ text.countP p := by
  fun_induction foldGlyphsFrom place text with
  | case1 place => exact le_rfl
  | case2 c rest ih =>
      rw [List.countP_cons, List.countP_cons]
      exact Nat.add_le_add_right ih _
  | case3 c rest folded next hfolded ih =>
      have hle := countP_foldInside_le hp c
      rw [hfolded] at hle
      rw [← List.singleton_append, List.countP_append, List.countP_append]
      exact Nat.add_le_add hle ih
  | case4 c rest symbol beyond hconnective ih =>
      obtain ⟨word, -, -, htext⟩ := exists_eq_append_of_connective? hconnective
      have hsymbol : symbol.countP p = 0 :=
        countP_eq_zero_of_forall_lt hp fun d hd => (foldOutside_symbol hconnective d hd).2
      rw [htext, List.countP_append, List.countP_append, hsymbol]
      exact Nat.add_le_add (Nat.zero_le _) ih
  | case5 c rest hconnective folded next hfolded ih =>
      have hle := countP_foldOutside_le hp c
      rw [hfolded] at hle
      rw [← List.singleton_append, List.countP_append, List.countP_append]
      exact Nat.add_le_add hle ih

end

/-- Whether a connective ends with the letter. No other letter is taken away. -/
def endsConnective (c : Char) : Bool :=
  c == 'つ' || c == 'は'

theorem endsConnective_eq_false {P : Char → Prop} (hand : ¬ P 'つ') (hor : ¬ P 'は') {c : Char}
    (hc : P c) : endsConnective c = false := by
  rw [endsConnective, Bool.or_eq_false_iff, beq_eq_false_iff_ne, beq_eq_false_iff_ne]
  exact ⟨fun h => hand (h ▸ hc), fun h => hor (h ▸ hc)⟩

theorem endsConnective_of_lt (c : Char) (h : c.toNat < 128) : endsConnective c = false :=
  endsConnective_eq_false (P := fun c => c.toNat < 128) (by decide) (by decide) h

theorem endsConnective_of_isBlank (c : Char) (h : isBlank c = true) : endsConnective c = false :=
  endsConnective_eq_false (P := fun c => isBlank c = true) (by decide) (by decide) h

/-- Where there is a connective, folding takes a letter away that ends one. -/
theorem countP_foldGlyphsFrom_lt {place : Quotation} {text : List Char}
    (h : ConnectsFrom place text) :
    (foldGlyphsFrom place text).countP endsConnective < text.countP endsConnective := by
  fun_induction foldGlyphsFrom place text with
  | case1 place => exact absurd h not_connectsFrom_nil
  | case2 c rest ih =>
      rw [connectsFrom_cons, or_iff_right (by simp)] at h
      rw [List.countP_cons, List.countP_cons]
      exact Nat.add_lt_add_right (ih h) _
  | case3 c rest folded next hfolded ih =>
      have hle := countP_foldInside_le endsConnective_of_lt c
      have hplace := foldInside_place c
      rw [hfolded] at hle hplace
      rw [connectsFrom_cons, or_iff_right (by simp), ← hplace] at h
      rw [← List.singleton_append, List.countP_append, List.countP_append]
      exact Nat.add_lt_add_of_le_of_lt hle (ih h)
  | case4 c rest symbol beyond hconnective ih =>
      obtain ⟨word, hword, -, htext⟩ := exists_eq_append_of_connective? hconnective
      have hsymbol : symbol.countP endsConnective = 0 :=
        countP_eq_zero_of_forall_lt endsConnective_of_lt fun d hd =>
          (foldOutside_symbol hconnective d hd).2
      have hends : ∀ word ∈ ["かつ".toList, "または".toList],
          word.countP endsConnective = 1 := by
        decide
      rw [htext, List.countP_append, List.countP_append, hsymbol, hends word hword, Nat.zero_add,
        Nat.add_comm 1]
      exact Nat.lt_succ_of_le (countP_foldGlyphsFrom_le endsConnective_of_lt _ _)
  | case5 c rest hconnective folded next hfolded ih =>
      have hle := countP_foldOutside_le endsConnective_of_lt c
      have hplace := foldOutside_place c
      rw [hfolded] at hle hplace
      rw [connectsFrom_cons, or_iff_right (by simp [hconnective]), ← hplace] at h
      rw [← List.singleton_append, List.countP_append, List.countP_append]
      exact Nat.add_lt_add_of_le_of_lt hle (ih h)

/-- What folding wrote has no connective. -/
theorem not_connectsFrom_foldGlyphsFrom (place : Quotation) (text : List Char) :
    ¬ ConnectsFrom place (foldGlyphsFrom place text) := by
  intro h
  have hlt := countP_foldGlyphsFrom_lt h
  rw [foldGlyphsFrom_foldGlyphsFrom] at hlt
  exact lt_irrefl _ hlt

/-! ## What moving a negation keeps -/

/-- An operand starts with no quote of any spelling. -/
theorem isQuote_of_startsOperand {c : Char} (h : startsOperand c = true) : isQuote c = false := by
  obtain ⟨-, hquote, -, hwide⟩ := isBlank_of_startsOperand h
  have hcorners : startsOperand '「' = false ∧ startsOperand '」' = false := by decide +kernel
  rw [isQuote, Bool.or_eq_false_iff]
  constructor
  · rw [← Bool.not_eq_true]
    intro hcorner
    simp only [isCornerBracket, Bool.or_eq_true, beq_iff_eq] at hcorner
    rcases hcorner with rfl | rfl
    · exact absurd (hcorners.1.symm.trans h) (by decide)
    · exact absurd (hcorners.2.symm.trans h) (by decide)
  · refine beq_eq_false_iff_ne.mpr fun hfold => ?_
    rcases eq_quote_of_foldWidth_eq hfold with rfl | rfl
    · exact absurd hquote (by decide)
    · exact hwide rfl

/-- The operator in front of an operand changes no place behind the operand's first character. -/
theorem next_operator (place : Quotation) {c : Char} (hc : startsOperand c = true) :
    (place.next isQuote '!').next isQuote c = place.next isQuote c := by
  cases place with
  | outside | inside => rfl
  | escaped =>
      exact Quotation.next_eq_self (by decide) (isQuote_of_startsOperand hc)
        (isBlank_of_startsOperand hc).2.2.1

/-- A text without quotes and backslashes leads to where it starts, unless its first character is
protected. -/
theorem Quotation.past_eq_self {quote : Char → Bool} {place : Quotation} {text : List Char}
    (hplace : place ≠ .escaped) (htext : ∀ d ∈ text, quote d = false ∧ d ≠ '\\') :
    place.past quote text = place := by
  induction text with
  | nil => rfl
  | cons d text ih =>
      rw [List.forall_mem_cons] at htext
      rw [past_cons, next_eq_self hplace htext.1.1 htext.1.2, ih htext.2]

/-- Only a backslash protects the character behind it. -/
theorem Quotation.past_concat_ne_escaped {quote : Char → Bool} {place : Quotation}
    {text : List Char} {c : Char} (hc : c ≠ '\\') : place.past quote (text ++ [c]) ≠ .escaped := by
  have hslash : (c == '\\') = false := beq_eq_false_iff_ne.mpr hc
  rw [past_append, past_cons, past_nil]
  cases place.past quote text with
  | outside => rw [next]; split <;> simp
  | inside => rw [next, hslash, if_neg Bool.false_ne_true]; split <;> simp
  | escaped => simp [next]

/-- The letters with which a connective goes on. -/
def continuingLetters : List Char :=
  ['つ', 'た', 'は']

/-- A connective does not reach over a character with which none goes on. -/
theorem connective?_append_of_notMem_continuing {c : Char} {text rest : List Char}
    (hrest : ∀ d ∈ rest.head?, d ∉ continuingLetters) :
    connective? (c :: text ++ rest) = connective? (c :: text) := by
  have hand : ∀ d ∈ rest.head?, d ∉ ['つ'] := fun d hd hmem =>
    hrest d hd ((by decide : ['つ'] ⊆ continuingLetters) hmem)
  have hor : ∀ d ∈ rest.head?, d ∉ ['た', 'は'] := fun d hd hmem =>
    hrest d hd ((by decide : ['た', 'は'] ⊆ continuingLetters) hmem)
  have handWord : "かつ".toList = 'か' :: ['つ'] := rfl
  have horWord : "または".toList = 'ま' :: ['た', 'は'] := rfl
  simp only [connective?, connectives, List.find?_cons, List.find?_nil, handWord, horWord,
    List.cons_append, startsWithWord_cons, startsWithWord_append_eq hand,
    startsWithWord_append_eq hor]

section

variable {place : Quotation} {text rest : List Char}

theorem ConnectsFrom.append_left (h : ConnectsFrom (place.past isQuote text) rest) :
    ConnectsFrom place (text ++ rest) := by
  obtain ⟨front, behind, rfl, hplace, hconnective⟩ := h
  refine ⟨text ++ front, behind, by rw [List.append_assoc], ?_, hconnective⟩
  rw [Quotation.past_append, hplace]

theorem ConnectsFrom.append_right (h : ConnectsFrom place text) :
    ConnectsFrom place (text ++ rest) := by
  obtain ⟨front, behind, rfl, hplace, hconnective⟩ := h
  refine ⟨front, behind ++ rest, by rw [List.append_assoc], hplace, ?_⟩
  rw [connective?, Option.isSome_map, List.find?_isSome] at hconnective ⊢
  obtain ⟨entry, hentry, hstarts⟩ := hconnective
  exact ⟨entry, hentry,
    startsWithWord_iff.mpr ((startsWithWord_iff.mp hstarts).trans (List.prefix_append _ _))⟩

/-- Where no connective goes on with what follows a text, each has its own. -/
theorem connectsFrom_append (hrest : ∀ d ∈ rest.head?, d ∉ continuingLetters) :
    ConnectsFrom place (text ++ rest) ↔
      ConnectsFrom place text ∨ ConnectsFrom (place.past isQuote text) rest := by
  induction text generalizing place with
  | nil => exact (or_iff_right not_connectsFrom_nil).symm
  | cons c text ih =>
      have hfirst := @connective?_append_of_notMem_continuing c text rest hrest
      rw [List.cons_append] at hfirst ⊢
      rw [connectsFrom_cons, connectsFrom_cons, hfirst, ih, or_assoc]
      rfl

end

/-- No letter with which a connective goes on stands directly behind the last letter of a
marker. -/
def Unjoined (text : List Char) : Prop :=
  text.IsChain fun c d => c = 'い' → d ∉ continuingLetters

instance (text : List Char) : Decidable (Unjoined text) := by
  unfold Unjoined
  infer_instance

namespace NegationMoves

variable {text moved before operand gap behind : List Char}
  (h : NegationMoves text moved before operand gap behind)

include h

/-- The operator changes no place behind the operand. -/
theorem past_operator_isQuote (place : Quotation) :
    (place.next isQuote '!').past isQuote operand = place.past isQuote operand := by
  obtain ⟨first, rest, rfl, hstarts⟩ := h.starts
  rw [Quotation.past_cons, Quotation.past_cons, next_operator place hstarts]

/-- Nor do the blanks and the marker that go away. -/
theorem past_gap (place : Quotation) :
    (place.past isQuote operand).past isQuote (gap ++ negationMarker) =
      place.past isQuote operand := by
  obtain ⟨front, last, rfl, hends⟩ := h.ends
  refine Quotation.past_eq_self (Quotation.past_concat_ne_escaped ?_) ?_
  · rintro rfl
    exact absurd hends (by decide)
  · refine List.forall_mem_append.mpr ⟨fun d hd => ?_, by decide⟩
    exact ⟨(foldOutside_of_isBlank (h.gap_blank d hd)).1,
      ne_of_isBlank (h.gap_blank d hd) (by decide)⟩

/-- The characters that folding keeps in the text it keeps in the moved text. -/
theorem keptFrom (hkept : KeptFrom .outside text) : KeptFrom .outside moved := by
  rw [h.text_eq, ← List.append_assoc gap, keptFrom_append, keptFrom_append, keptFrom_append,
    h.past_gap] at hkept
  obtain ⟨hbefore, hoperand, -, hbehind⟩ := hkept
  rw [h.moved_eq, keptFrom_append, KeptFrom, keptFrom_append, h.past_operator_isQuote]
  refine ⟨hbefore, ?_, ?_, hbehind⟩
  · cases Quotation.outside.past isQuote before <;> trivial
  · obtain ⟨first, rest, rfl, hstarts⟩ := h.starts
    obtain ⟨hfirst, hrest⟩ := hoperand
    refine ⟨?_, by rwa [next_operator _ hstarts]⟩
    cases hplace : Quotation.outside.past isQuote before with
    | outside =>
        rw [hplace] at hfirst
        exact hfirst
    | inside =>
        rw [hplace] at hfirst
        exact hfirst
    | escaped =>
        -- The operator is protected now, and the first character of the operand needs no
        -- protection.
        have hquote := isQuote_of_startsOperand hstarts
        have hslash := (isBlank_of_startsOperand hstarts).2.2.1
        refine congrArg Prod.fst (foldInside_of_ne_outside ?_)
        rw [Quotation.next_eq_self (by decide) hquote hslash]
        decide

/-- The characters of the operand, of the gap and of what surrounds them are those of the moved
text. -/
theorem countP_eq {p : Char → Bool} (hgap : ∀ d, isBlank d = true → p d = false)
    (hword : ∀ d ∈ '!' :: negationMarker, p d = false) : moved.countP p = text.countP p := by
  obtain ⟨hoperator, hmarker⟩ := List.forall_mem_cons.mp hword
  have hgap : gap.countP p = 0 :=
    List.countP_eq_zero.mpr fun d hd => by simp [hgap d (h.gap_blank d hd)]
  have hmarker : negationMarker.countP p = 0 :=
    List.countP_eq_zero.mpr fun d hd => by simp [hmarker d hd]
  rw [h.text_eq, h.moved_eq]
  simp only [List.countP_append, List.countP_cons, hgap, hmarker, hoperator]
  simp only [Bool.false_eq_true, if_false]
  omega

/-- What is not joined to the marker is not joined in the moved text. -/
theorem unjoined (hunjoined : Unjoined text) : Unjoined moved := by
  rw [Unjoined, h.text_eq, List.isChain_append, List.isChain_append, ← List.append_assoc,
    List.isChain_append] at hunjoined
  obtain ⟨hbefore, ⟨hoperand, ⟨-, hbehind, hmarker⟩, -⟩, -⟩ := hunjoined
  rw [Unjoined, h.moved_eq, List.isChain_append, List.isChain_cons, List.isChain_append]
  refine ⟨hbefore, ⟨?_, hoperand, hbehind, ?_⟩, ?_⟩
  · rintro d - hoperator
    exact absurd hoperator (by decide)
  · intro c hc d hd hlast
    exact hmarker 'い' (by simp [negationMarker]) d hd rfl
  · intro c hc d hd hlast
    cases hd
    decide

/-- Moving joins no connective in such a text. -/
theorem not_connectsFrom (hunjoined : Unjoined text) (hfree : ¬ ConnectsFrom .outside text) :
    ¬ ConnectsFrom .outside moved := by
  have hbehind : ∀ d ∈ behind.head?, d ∉ continuingLetters := by
    rw [Unjoined, h.text_eq, List.isChain_append, List.isChain_append, ← List.append_assoc,
      List.isChain_append] at hunjoined
    obtain ⟨-, ⟨-, ⟨-, -, hmarker⟩, -⟩, -⟩ := hunjoined
    exact fun d hd => hmarker 'い' (by simp [negationMarker]) d hd rfl
  have hoperator : ∀ d ∈ ('!' :: (operand ++ behind)).head?, d ∉ continuingLetters := by
    intro d hd
    obtain rfl := Option.mem_some_iff.mp hd
    decide
  rw [h.text_eq, ← List.append_assoc gap] at hfree
  rw [h.moved_eq, connectsFrom_append hoperator, connectsFrom_cons,
    connectsFrom_append hbehind, h.past_operator_isQuote]
  rintro (hbefore | ⟨-, hoperator⟩ | hoperand | hrest)
  · exact hfree hbefore.append_right
  · cases hoperator
  · refine hfree (ConnectsFrom.append_left (ConnectsFrom.append_right ?_))
    obtain ⟨first, rest, rfl, hstarts⟩ := h.starts
    rw [connectsFrom_cons] at hoperand ⊢
    rw [next_operator _ hstarts] at hoperand
    refine hoperand.imp_left fun hstart => ⟨?_, hstart.2⟩
    exact Quotation.eq_outside_of_next (by decide) hstart.1
  · refine hfree (ConnectsFrom.append_left (ConnectsFrom.append_left ?_))
    refine ConnectsFrom.append_left ?_
    rwa [h.past_gap]

end NegationMoves

/-! ## From the text to the folded text -/

/-- A letter with which a connective goes on is written by folding only where it stood. -/
theorem head?_foldGlyphsFrom {place : Quotation} {text : List Char} {d : Char}
    (hd : d ∈ continuingLetters) (h : d ∈ (foldGlyphsFrom place text).head?) : d ∈ text.head? := by
  have hletters : ∀ w ∈ continuingLetters,
      (foldOutside w = ([w], .outside) ∧ ¬ w.toNat < 128) ∧ w ≠ '"' := by
    decide
  obtain ⟨houtside, hquote⟩ := hletters d hd
  cases text with
  | nil =>
      rw [foldGlyphsFrom_nil] at h
      cases h
  | cons c rest =>
      cases place with
      | outside =>
          obtain ⟨folded, hfolded⟩ := List.head?_eq_some_iff.mp h
          obtain ⟨rest', htext, -⟩ := exists_eq_cons_of_foldGlyphsFrom houtside hfolded
          rw [htext]
          rfl
      | inside =>
          rw [foldGlyphsFrom_inside, foldInside] at h
          split at h
          · exact h
          · split at h
            · exact absurd (Option.some.inj h).symm hquote
            · exact h
      | escaped =>
          rw [foldGlyphsFrom_escaped] at h
          exact h

section

variable {place : Quotation} {c : Char} {text rest word : List Char}

/-- Letters other than the last one of a marker are joined to nothing. -/
theorem unjoined_append (hword : ∀ d ∈ word, d ≠ 'い') : Unjoined (word ++ text) ↔ Unjoined text :=
    by
  induction word with
  | nil => rfl
  | cons d word ih =>
      rw [List.forall_mem_cons] at hword
      rw [List.cons_append, Unjoined, List.isChain_cons, ← Unjoined, ih hword.2]
      exact and_iff_right fun _ _ hlast => absurd hlast hword.1

theorem Unjoined.cons_foldGlyphsFrom (h : Unjoined (c :: rest))
    (hrest : Unjoined (foldGlyphsFrom place rest)) :
    Unjoined (c :: foldGlyphsFrom place rest) := by
  rw [Unjoined, List.isChain_cons] at h ⊢
  exact ⟨fun d hd hlast hmem => h.1 d (head?_foldGlyphsFrom hmem hd) hlast hmem, hrest⟩

theorem ne_of_toNat_lt (h : c.toNat < 128) : c ≠ 'い' := by
  rintro rfl
  exact absurd h (by decide)

/-- Folding joins nothing to the last letter of a marker. -/
theorem Unjoined.foldGlyphsFrom (h : Unjoined text) : Unjoined (foldGlyphsFrom place text) := by
  fun_induction BlockCode.foldGlyphsFrom place text with
  | case1 place => exact h
  | case2 c rest ih => exact h.cons_foldGlyphsFrom (ih (List.isChain_cons.mp h).2)
  | case3 c rest folded next hfolded ih =>
      have hrest := ih (List.isChain_cons.mp h).2
      rw [foldInside] at hfolded
      split at hfolded
      · cases hfolded
        exact h.cons_foldGlyphsFrom hrest
      · split at hfolded
        · cases hfolded
          exact (unjoined_append (by decide)).mpr hrest
        · cases hfolded
          exact h.cons_foldGlyphsFrom hrest
  | case4 c rest symbol beyond hconnective ih =>
      obtain ⟨word, -, -, htext⟩ := exists_eq_append_of_connective? hconnective
      rw [htext] at h
      have hsymbol : ∀ d ∈ symbol, d ≠ 'い' := fun d hd =>
        ne_of_toNat_lt (foldOutside_symbol hconnective d hd).2
      exact (unjoined_append hsymbol).mpr (ih (List.isChain_append.mp h).2.1)
  | case5 c rest hconnective folded next hfolded ih =>
      have hrest := ih (List.isChain_cons.mp h).2
      rcases foldOutside_outcome c with hquote | ⟨-, hwide⟩ | ⟨word, hplain, -, hword⟩
      · obtain ⟨rfl, rfl⟩ := Prod.mk.inj (hfolded.symm.trans hquote)
        exact (unjoined_append (by decide)).mpr hrest
      · obtain ⟨rfl, rfl⟩ := Prod.mk.inj (hfolded.symm.trans hwide)
        exact h.cons_foldGlyphsFrom hrest
      · obtain ⟨rfl, rfl⟩ := Prod.mk.inj (hfolded.symm.trans hplain)
        by_cases hsame : folded = [c]
        · subst hsame
          exact h.cons_foldGlyphsFrom hrest
        · exact (unjoined_append fun d hd =>
            ne_of_toNat_lt ((hword d hd).2.resolve_right hsame)).mpr hrest

end

/-! ## Normalizing a normalized text -/

/-- Every character of a normalized text is one that folding keeps, and no marker is left. -/
theorem keptFrom_of_normalizeText {fragment text : String} (h : normalizeText fragment = .ok text) :
    KeptFrom .outside text.toList ∧ splitAtMarkerFrom? .outside text.toList = none := by
  have hrewritten := normalizeText_eq_ok_iff.mp h
  exact ⟨rewriteNegation_preserves (fun hmoves => hmoves.keptFrom) hrewritten
    (keptFrom_foldGlyphsFrom .outside _), splitAtMarkerFrom?_of_rewriteNegation hrewritten⟩

/-- Characters that are neither blank nor in an operator or a marker are lost in folding only. -/
theorem countP_of_normalizeText {p : Char → Bool} (hgap : ∀ d, isBlank d = true → p d = false)
    (hword : ∀ d ∈ '!' :: negationMarker, p d = false) {fragment text : String}
    (h : normalizeText fragment = .ok text) :
    text.toList.countP p = (foldGlyphs fragment.toList).countP p :=
  rewriteNegation_preserves
    (P := fun text => text.countP p = (foldGlyphs fragment.toList).countP p)
    (fun hmoves hcount => (hmoves.countP_eq hgap hword).trans hcount)
    (normalizeText_eq_ok_iff.mp h) rfl

/-- A normalized text is left alone when it is normalized again exactly when no connective stands in
it outside of strings. None does where nothing with which a connective goes on stands directly
behind the last letter of a marker. -/
theorem normalizeText_stable {fragment text : String} (h : normalizeText fragment = .ok text) :
    (normalizeText text = .ok text ↔ ¬ ConnectsFrom .outside text.toList) ∧
      (Unjoined fragment.toList → normalizeText text = .ok text) := by
  obtain ⟨hkept, hmarker⟩ := keptFrom_of_normalizeText h
  have stable (hfree : ¬ ConnectsFrom .outside text.toList) : normalizeText text = .ok text := by
    rw [normalizeText_eq_ok_iff, foldGlyphs, foldGlyphsFrom_eq_self hkept hfree]
    exact rewriteNegation_eq_self hmarker
  refine ⟨⟨fun hagain hconnects => ?_, stable⟩, fun hunjoined => stable ?_⟩
  · have hlt := countP_foldGlyphsFrom_lt hconnects
    exact absurd (countP_of_normalizeText endsConnective_of_isBlank (by decide) hagain) hlt.ne'
  · exact (rewriteNegation_preserves
      (P := fun text => Unjoined text ∧ ¬ ConnectsFrom .outside text)
      (fun hmoves hinv => ⟨hmoves.unjoined hinv.1, hmoves.not_connectsFrom hinv.1 hinv.2⟩)
      (normalizeText_eq_ok_iff.mp h)
      ⟨hunjoined.foldGlyphsFrom, not_connectsFrom_foldGlyphsFrom _ _⟩).2

/-- Two negations between connectives, one of a name that ends in the marker's first letter, and a
marker in a string. -/
theorem normalizeText_stable_markers :
    normalizeText "ａ でないまたは(ででない)かつ「でない」" = .ok "!a || (!で) && \"でない\"" ∧
      Unjoined "ａ でないまたは(ででない)かつ「でない」".toList ∧
      normalizeText "!a || (!で) && \"でない\"" = .ok "!a || (!で) && \"でない\"" ∧
      ¬ ConnectsFrom .outside "!a || (!で) && \"でない\"".toList := by
  have hnormal : normalizeText "ａ でないまたは(ででない)かつ「でない」" =
      .ok "!a || (!で) && \"でない\"" := by
    decide +kernel
  have hunjoined : Unjoined "ａ でないまたは(ででない)かつ「でない」".toList := by decide
  obtain ⟨hiff, hstable⟩ := normalizeText_stable hnormal
  exact ⟨hnormal, hunjoined, hstable hunjoined, hiff.mp (hstable hunjoined)⟩

/-- Where a marker goes away, the letters on both sides of it are joined to a connective. -/
theorem normalizeText_joins_connective :
    normalizeText "かでないつ" = .ok "!かつ" ∧ normalizeText "!かつ" = .ok "! && " := by
  decide +kernel

/-- A blank behind the marker keeps the letters apart. -/
example : normalizeText "かでない つ" = .ok "!か つ" := by decide +kernel

end BlockCode
