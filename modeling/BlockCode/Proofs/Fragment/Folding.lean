/- # What folding leaves

Folding goes by its own reading of the quotes, and what it writes is read by the double quotes
alone. The two readings agree on the folded text, because each quote that folding knows is written
as a double quote; only the full-width quote that opens a string is left as it was typed. From there
on the readings differ, and what follows counts as text outside of strings although it was folded as
text inside.

So the folded text has nothing left to fold outside of its literals exactly when no full-width quote
opens a string. A literal in double quotes is kept exactly when no other quote ends it. Folding a
second time changes nothing in any case.
-/

import BlockCode.Proofs.Expr.Apart
import BlockCode.Proofs.Fragment.Quotes

namespace BlockCode

/-! ## Single characters -/

/-- Whether the character is one of the full-width forms of the ASCII characters. -/
def isFullWidthForm (c : Char) : Bool :=
  0xFF01 ≤ c.toNat && c.toNat ≤ 0xFF5E

theorem foldWidth_eq_self {c : Char} (h : isFullWidthForm c = false) : foldWidth c = c :=
  if_neg (by simpa [isFullWidthForm] using h)

/-- A full-width form becomes a printable ASCII character. -/
theorem toNat_foldWidth_lt {c : Char} (h : isFullWidthForm c = true) : (foldWidth c).toNat < 128 :=
    by
  have hform : 0xFF01 ≤ c.toNat ∧ c.toNat ≤ 0xFF5E := by simpa [isFullWidthForm] using h
  rw [toNat_foldWidth hform]
  omega

/-- ASCII characters have no other width. -/
theorem isFullWidthForm_of_lt {c : Char} (h : c.toNat < 128) : isFullWidthForm c = false := by
  simp only [isFullWidthForm, Bool.and_eq_false_iff, decide_eq_false_iff_not]
  omega

theorem isCornerBracket_of_lt {c : Char} (h : c.toNat < 128) : isCornerBracket c = false := by
  rw [← Bool.not_eq_true]
  intro hcorner
  simp only [isCornerBracket, Bool.or_eq_true, beq_iff_eq] at hcorner
  rcases hcorner with rfl | rfl <;> revert h <;> decide

theorem foldOutside_place (c : Char) : (foldOutside c).2 = Quotation.outside.next isQuote c := by
  rw [foldOutside, Quotation.next, isQuote]
  split
  · next hcorner => rw [hcorner]; rfl
  · next hcorner =>
    rw [Bool.eq_false_iff.mpr hcorner, Bool.false_or]
    split
    · next replacement hglyph =>
      rw [if_neg]
      intro hquote
      rw [eq_of_beq hquote] at hglyph
      cases hglyph
    · split <;> rfl

theorem foldInside_place (c : Char) : (foldInside c).2 = Quotation.inside.next isQuote c := by
  rw [foldInside, Quotation.next, isQuote]
  split
  · rfl
  · split <;> rfl

/-- What becomes of a character outside of strings. A quote becomes a double quote, but in full
width it stays. Everything else becomes characters that are left alone when they are folded again:
ASCII characters, or the character itself. -/
theorem foldOutside_outcome (c : Char) :
    foldOutside c = (['"'], .inside) ∨ c = '\uff02' ∧ foldOutside c = ([c], .inside) ∨
      ∃ word, foldOutside c = (word, .outside) ∧ word ≠ [] ∧
        ∀ d ∈ word, foldOutside d = ([d], .outside) ∧ (d.toNat < 128 ∨ word = [c]) := by
  rw [foldOutside]
  split
  · exact .inl rfl
  · next hcorner =>
    split
    · next replacement hglyph =>
      have hreplacements : ∀ entry ∈ operatorGlyphs, entry.2.toList ≠ [] ∧
          ∀ d ∈ entry.2.toList, foldOutside d = ([d], .outside) ∧ d.toNat < 128 := by
        decide
      obtain ⟨hne, hplain⟩ := hreplacements _ (mem_operatorGlyphs hglyph)
      exact .inr (.inr ⟨_, rfl, hne, fun d hd => ⟨(hplain d hd).1, .inl (hplain d hd).2⟩⟩)
    · next hglyph =>
      split
      · next hquote =>
        rcases eq_quote_of_foldWidth_eq (eq_of_beq hquote) with rfl | rfl
        · exact .inl rfl
        · exact .inr (.inl ⟨rfl, rfl⟩)
      · next hquote =>
        refine .inr (.inr ⟨_, rfl, List.cons_ne_nil _ _, ?_⟩)
        rw [List.forall_mem_singleton]
        have hsmall : (foldWidth c).toNat < 128 ∨ foldWidth c = c := by
          cases hform : isFullWidthForm c with
          | true => exact .inl (toNat_foldWidth_lt hform)
          | false => exact .inr (foldWidth_eq_self hform)
        have hbracket : isCornerBracket (foldWidth c) = false := by
          rcases hsmall with hsmall | hsame
          · exact isCornerBracket_of_lt hsmall
          · rw [hsame]
            exact Bool.eq_false_iff.mpr hcorner
        refine ⟨?_, hsmall.imp_right fun hsame => by rw [hsame]⟩
        rw [foldOutside, hbracket, if_neg Bool.false_ne_true, foldWidth_foldWidth, hglyph]
        exact if_neg hquote

/-- Inside a string a character stays or becomes a double quote, and it leads to the same place when
it is folded again. -/
theorem foldInside_outcome (c : Char) :
    ∃ d, foldInside c = ([d], (foldInside c).2) ∧ foldInside d = ([d], (foldInside c).2) ∧
      (foldInside c).2 = Quotation.inside.after d := by
  rw [foldInside]
  split
  · next hslash =>
    rw [eq_of_beq hslash]
    exact ⟨'\\', rfl, rfl, rfl⟩
  · next hslash =>
    split
    · exact ⟨'"', rfl, rfl, rfl⟩
    · next hquote =>
      refine ⟨c, rfl, ?_, ?_⟩
      · rw [foldInside, if_neg hslash, if_neg hquote]
      · have hdouble : ¬(c == '"') = true := fun hc =>
          hquote (isQuote_of_isDoubleQuote hc)
        rw [Quotation.after, if_neg hslash, if_neg hdouble]

/-! ## Connectives -/

/-- A connective starts with one of two letters. -/
theorem mem_of_connective?_cons {c : Char} {text symbol : List Char} {beyond : Nat}
    (h : connective? (c :: text) = some (symbol, beyond)) : c ∈ ['か', 'ま'] := by
  obtain ⟨word, hword, -, htext⟩ := exists_eq_append_of_connective? h
  simp only [List.mem_cons, List.not_mem_nil, or_false] at hword
  rcases hword with rfl | rfl
  · exact (List.cons.inj htext).1 ▸ by decide
  · exact (List.cons.inj htext).1 ▸ by decide

theorem connective?_of_lt {c : Char} (h : c.toNat < 128) (text : List Char) :
    connective? (c :: text) = none := by
  cases hconnective : connective? (c :: text) with
  | none => rfl
  | some found =>
      have hletters : ∀ d ∈ ['か', 'ま'], ¬ d.toNat < 128 := by decide
      exact absurd h (hletters c (mem_of_connective?_cons hconnective))

/-- A connective has no quotes, and its letters stand in the text. -/
theorem exists_word_of_connective? {c : Char} {rest symbol : List Char} {beyond : Nat}
    (h : connective? (c :: rest) = some (symbol, beyond)) :
    ∃ word, c :: rest = word ++ rest.drop beyond ∧ ∀ d ∈ word, isQuote d = false := by
  obtain ⟨word, hword, -, htext⟩ := exists_eq_append_of_connective? h
  have hquotes : ∀ word ∈ ["かつ".toList, "または".toList], ∀ d ∈ word, isQuote d = false := by
    decide
  exact ⟨word, htext, hquotes word hword⟩

/-- What a connective becomes is left alone when it is folded again. -/
theorem foldOutside_symbol {c : Char} {rest symbol : List Char} {beyond : Nat}
    (h : connective? (c :: rest) = some (symbol, beyond)) :
    ∀ d ∈ symbol, foldOutside d = ([d], .outside) ∧ d.toNat < 128 := by
  rcases mem_of_connective? h with rfl | rfl <;> decide

section Equations

variable {c : Char} {rest symbol : List Char} {beyond : Nat}

theorem foldGlyphsFrom_nil (place : Quotation) : foldGlyphsFrom place [] = [] := by
  rw [foldGlyphsFrom]

theorem foldGlyphsFrom_escaped :
    foldGlyphsFrom .escaped (c :: rest) = c :: foldGlyphsFrom .inside rest := by
  rw [foldGlyphsFrom]

theorem foldGlyphsFrom_inside :
    foldGlyphsFrom .inside (c :: rest) =
      (foldInside c).1 ++ foldGlyphsFrom (foldInside c).2 rest := by
  rw [foldGlyphsFrom]

theorem foldGlyphsFrom_connective (h : connective? (c :: rest) = some (symbol, beyond)) :
    foldGlyphsFrom .outside (c :: rest) =
      symbol ++ foldGlyphsFrom .outside (rest.drop beyond) := by
  rw [foldGlyphsFrom]
  simp only [h]

theorem foldGlyphsFrom_outside (h : connective? (c :: rest) = none) :
    foldGlyphsFrom .outside (c :: rest) =
      (foldOutside c).1 ++ foldGlyphsFrom (foldOutside c).2 rest := by
  rw [foldGlyphsFrom]
  simp only [h]

end Equations

/-- ASCII characters that are left alone are left alone one after the other. -/
theorem foldGlyphsFrom_word {word : List Char}
    (hword : ∀ d ∈ word, foldOutside d = ([d], .outside) ∧ d.toNat < 128) (text : List Char) :
    foldGlyphsFrom .outside (word ++ text) = word ++ foldGlyphsFrom .outside text := by
  induction word with
  | nil => rfl
  | cons d word ih =>
      rw [List.forall_mem_cons] at hword
      rw [List.cons_append, foldGlyphsFrom_outside (connective?_of_lt hword.1.2 _), hword.1.1,
        ih hword.2]
      rfl

/-- A letter that folding leaves alone comes from nothing but itself. -/
theorem exists_eq_cons_of_foldGlyphsFrom {w : Char}
    (hw : foldOutside w = ([w], .outside) ∧ ¬ w.toNat < 128) {text folded : List Char}
    (h : foldGlyphsFrom .outside text = w :: folded) :
    ∃ rest, text = w :: rest ∧ folded = foldGlyphsFrom .outside rest := by
  have not_head {d : Char} {more : List Char} (hd : d.toNat < 128) (heq : d :: more = w :: folded) :
      False :=
    hw.2 ((List.cons.inj heq).1 ▸ hd)
  cases text with
  | nil =>
      rw [foldGlyphsFrom_nil] at h
      cases h
  | cons c rest =>
      cases hconnective : connective? (c :: rest) with
      | some found =>
          rw [foldGlyphsFrom_connective hconnective] at h
          rcases mem_of_connective? hconnective with hsymbol | hsymbol <;> rw [hsymbol] at h
          · exact (not_head (by decide) h).elim
          · exact (not_head (by decide) h).elim
      | none =>
          rw [foldGlyphsFrom_outside hconnective] at h
          rcases foldOutside_outcome c with hquote | ⟨rfl, hwide⟩ | ⟨word, hplain, hne, hword⟩
          · rw [hquote] at h
            exact (not_head (by decide) h).elim
          · rw [hwide] at h
            rw [← (List.cons.inj h).1, hwide] at hw
            cases hw.1
          · rw [hplain] at h
            obtain ⟨d, word, rfl⟩ := List.exists_cons_of_ne_nil hne
            obtain ⟨rfl, htail⟩ := List.cons.inj h
            rcases (hword d (.head _)).2 with hsmall | hsame
            · exact absurd hsmall hw.2
            · obtain ⟨rfl, rfl⟩ := List.cons.inj hsame
              exact ⟨rest, rfl, htail.symm⟩

/-- Folding makes no connective: its letters stand together only where they stood together. -/
theorem connective?_foldGlyphsFrom {c : Char} {rest : List Char}
    (h : connective? (c :: rest) = none) :
    connective? (c :: foldGlyphsFrom .outside rest) = none := by
  have letter {w : Char} (hw : w ∈ ['つ', 'た', 'は']) {text folded : List Char}
      (htext : foldGlyphsFrom .outside text = w :: folded) :
      ∃ rest, text = w :: rest ∧ folded = foldGlyphsFrom .outside rest := by
    have hletters : ∀ w ∈ ['つ', 'た', 'は'], foldOutside w = ([w], .outside) ∧ ¬ w.toNat < 128 := by
      decide
    exact exists_eq_cons_of_foldGlyphsFrom (hletters w hw) htext
  cases hfound : connective? (c :: foldGlyphsFrom .outside rest) with
  | none => rfl
  | some found =>
      obtain ⟨word, hword, -, htext⟩ := exists_eq_append_of_connective? hfound
      simp only [List.mem_cons, List.not_mem_nil, or_false] at hword
      rcases hword with rfl | rfl
      · obtain ⟨rfl, htail⟩ := List.cons.inj htext
        obtain ⟨behind, rfl, -⟩ := letter (by decide) htail
        cases h
      · obtain ⟨rfl, htail⟩ := List.cons.inj htext
        obtain ⟨behind, rfl, htail'⟩ := letter (by decide) htail
        obtain ⟨behind, rfl, -⟩ := letter (by decide) htail'.symm
        cases h

/-! ## Folding twice -/

/-- What was folded stays as it is when it is folded again, from whatever place. -/
theorem foldGlyphsFrom_foldGlyphsFrom (place : Quotation) (text : List Char) :
    foldGlyphsFrom place (foldGlyphsFrom place text) = foldGlyphsFrom place text := by
  fun_induction foldGlyphsFrom place text with
  | case1 place => rw [foldGlyphsFrom_nil]
  | case2 c rest ih => rw [foldGlyphsFrom_escaped, ih]
  | case3 c rest folded next hfolded ih =>
      obtain ⟨d, hinside, hagain, -⟩ := foldInside_outcome c
      rw [hfolded] at hinside hagain
      obtain rfl : folded = [d] := congrArg Prod.fst hinside
      rw [List.singleton_append, foldGlyphsFrom_inside, hagain, ih]
      rfl
  | case4 c rest symbol beyond hconnective ih =>
      rw [foldGlyphsFrom_word (foldOutside_symbol hconnective), ih]
  | case5 c rest hconnective folded next hfolded ih =>
      rcases foldOutside_outcome c with hquote | ⟨rfl, hwide⟩ | ⟨word, hplain, -, hword⟩
      · obtain ⟨rfl, rfl⟩ := Prod.mk.inj (hfolded.symm.trans hquote)
        have hagain : foldOutside '"' = (['"'], .inside) := rfl
        rw [List.singleton_append, foldGlyphsFrom_outside (connective?_of_lt (by decide) _), hagain,
          ih]
        rfl
      · obtain ⟨rfl, rfl⟩ := Prod.mk.inj (hfolded.symm.trans hwide)
        have hnone : connective? ('\uff02' :: foldGlyphsFrom .inside rest) = none := rfl
        rw [List.singleton_append, foldGlyphsFrom_outside hnone, hwide, ih]
        rfl
      · obtain ⟨rfl, rfl⟩ := Prod.mk.inj (hfolded.symm.trans hplain)
        by_cases hsame : folded = [c]
        · subst hsame
          rw [List.singleton_append,
            foldGlyphsFrom_outside (connective?_foldGlyphsFrom hconnective),
            (hword c (.head _)).1, ih]
          rfl
        · have hsmall : ∀ d ∈ folded, foldOutside d = ([d], .outside) ∧ d.toNat < 128 := fun d hd =>
            ⟨(hword d hd).1, (hword d hd).2.resolve_right hsame⟩
          rw [foldGlyphsFrom_word hsmall, ih]

/-- Folding a text that was folded already changes nothing. -/
theorem foldGlyphsText_idempotent (fragment : String) :
    foldGlyphsText (foldGlyphsText fragment) = foldGlyphsText fragment := by
  rw [foldGlyphsText, foldGlyphsText, String.toList_ofList, foldGlyphs, foldGlyphs,
    foldGlyphsFrom_foldGlyphsFrom]

/-! ## Nothing left to fold -/

/-- A property of each place of a text where a character stands, told from the front of the text. -/
theorem forall_split_cons {P : List Char → Char → List Char → Prop} {d : Char} {text : List Char} :
    (∀ front c behind, d :: text = front ++ c :: behind → P front c behind) ↔
      P [] d text ∧ ∀ front c behind, text = front ++ c :: behind → P (d :: front) c behind := by
  constructor
  · intro h
    exact ⟨h [] d text rfl,
      fun front c behind htext => h (d :: front) c behind (by rw [htext]; rfl)⟩
  · rintro ⟨hfirst, hrest⟩ front c behind htext
    cases front with
    | nil =>
        obtain ⟨rfl, rfl⟩ := List.cons.inj htext
        exact hfirst
    | cons e front =>
        obtain ⟨rfl, htail⟩ := List.cons.inj htext
        exact hrest front c behind htail

/-- Nothing in the text that stands outside of literals in double quotes is left to fold: no
full-width form, no glyph and no connective. The text starts at the place. -/
def FoldedFrom (place : Quotation) (text : List Char) : Prop :=
  ∀ front c behind, text = front ++ c :: behind → place.past isDoubleQuote front = .outside →
    isFullWidthForm c = false ∧ operatorGlyph? c = none ∧ isCornerBracket c = false ∧
      connective? (c :: behind) = none

/-- A full-width quote opens a string in the text, which starts at the place. -/
def OpensWideFrom (place : Quotation) (text : List Char) : Prop :=
  ∃ front behind, text = front ++ '\uff02' :: behind ∧ place.past isQuote front = .outside

theorem foldedFrom_cons {place : Quotation} {c : Char} {text : List Char} :
    FoldedFrom place (c :: text) ↔
      (place = .outside → isFullWidthForm c = false ∧ operatorGlyph? c = none ∧
        isCornerBracket c = false ∧ connective? (c :: text) = none) ∧
      FoldedFrom (place.after c) text := by
  rw [FoldedFrom, forall_split_cons, FoldedFrom, ← Quotation.next_isDoubleQuote]
  rfl

theorem opensWideFrom_cons {place : Quotation} {c : Char} {text : List Char} :
    OpensWideFrom place (c :: text) ↔
      (place = .outside ∧ c = '\uff02') ∨ OpensWideFrom (place.next isQuote c) text := by
  constructor
  · rintro ⟨front, behind, htext, hplace⟩
    cases front with
    | nil => exact .inl ⟨hplace, (List.cons.inj htext).1⟩
    | cons d front =>
        obtain ⟨rfl, htail⟩ := List.cons.inj htext
        exact .inr ⟨front, behind, htail, hplace⟩
  · rintro (⟨rfl, rfl⟩ | ⟨front, behind, rfl, hplace⟩)
    · exact ⟨[], text, rfl, rfl⟩
    · exact ⟨c :: front, behind, rfl, hplace⟩

/-- What is left alone outside of strings is nothing to fold, and no quote. -/
theorem settled_of_foldOutside {d : Char} (h : foldOutside d = ([d], .outside)) :
    isFullWidthForm d = false ∧ operatorGlyph? d = none ∧ isCornerBracket d = false ∧
      isQuote d = false := by
  have hquote : isQuote d = false := by
    rw [← Bool.not_eq_true]
    intro hquote
    have hplace := foldOutside_place d
    rw [h, Quotation.next, if_pos hquote] at hplace
    cases hplace
  have hcorner : isCornerBracket d = false := (Bool.or_eq_false_iff.mp hquote).1
  have hdouble : (foldWidth d == '"') = false := (Bool.or_eq_false_iff.mp hquote).2
  rw [foldOutside, hcorner, hdouble, if_neg Bool.false_ne_true, if_neg Bool.false_ne_true] at h
  split at h
  · next replacement hglyph =>
    have hreplacements : ∀ entry ∈ operatorGlyphs,
        ∀ d ∈ entry.2.toList, operatorGlyph? (foldWidth d) = none := by
      decide
    have hword : replacement.toList = [d] := congrArg Prod.fst h
    have hnone := hreplacements _ (mem_operatorGlyphs hglyph) d (by rw [hword]; exact .head _)
    rw [hglyph] at hnone
    cases hnone
  · next hglyph =>
    have hself : foldWidth d = d := (List.cons.inj (congrArg Prod.fst h)).1
    refine ⟨?_, by rwa [hself] at hglyph, hcorner, hquote⟩
    rw [← Bool.not_eq_true]
    intro hform
    have hlt := toNat_foldWidth_lt hform
    rw [hself] at hlt
    rw [isFullWidthForm_of_lt hlt] at hform
    cases hform

/-- A quote in no other spelling than the double quote is no double quote either. -/
theorem isDoubleQuote_eq_false {c : Char} (h : isQuote c = false) : isDoubleQuote c = false := by
  rw [← Bool.not_eq_true]
  intro hdouble
  rw [isQuote_of_isDoubleQuote hdouble] at h
  cases h

theorem foldedFrom_word {word : List Char}
    (hword : ∀ d ∈ word, foldOutside d = ([d], .outside) ∧ d.toNat < 128) (text : List Char) :
    FoldedFrom .outside (word ++ text) ↔ FoldedFrom .outside text := by
  induction word with
  | nil => rfl
  | cons d word ih =>
      rw [List.forall_mem_cons] at hword
      obtain ⟨hform, hglyph, hcorner, hquote⟩ := settled_of_foldOutside hword.1.1
      have hafter : Quotation.outside.after d = .outside :=
        if_neg (by simpa [isDoubleQuote] using isDoubleQuote_eq_false hquote)
      rw [List.cons_append, foldedFrom_cons, hafter, ih hword.2]
      exact and_iff_right fun _ => ⟨hform, hglyph, hcorner, connective?_of_lt hword.1.2 _⟩

theorem opensWideFrom_word {word : List Char} (hword : ∀ d ∈ word, isQuote d = false)
    (text : List Char) :
    OpensWideFrom .outside (word ++ text) ↔ OpensWideFrom .outside text := by
  induction word with
  | nil => rfl
  | cons d word ih =>
      rw [List.forall_mem_cons] at hword
      have hnext : Quotation.outside.next isQuote d = .outside := if_neg (by simp [hword.1])
      rw [List.cons_append, opensWideFrom_cons, hnext, ih hword.2]
      refine or_iff_right ?_
      rintro ⟨-, rfl⟩
      cases hword.1

/-- Folding leaves something outside of literals only where a full-width quote opens a string. -/
theorem foldedFrom_foldGlyphsFrom_iff (place : Quotation) (text : List Char) :
    FoldedFrom place (foldGlyphsFrom place text) ↔ ¬ OpensWideFrom place text := by
  fun_induction foldGlyphsFrom place text with
  | case1 place => simp [FoldedFrom, OpensWideFrom]
  | case2 c rest ih =>
      rw [foldedFrom_cons, opensWideFrom_cons, and_iff_right (by simp), or_iff_right (by simp)]
      exact ih
  | case3 c rest folded next hfolded ih =>
      obtain ⟨d, hinside, -, hafter⟩ := foldInside_outcome c
      have hplace := foldInside_place c
      rw [hfolded] at hinside hafter hplace
      obtain rfl : folded = [d] := congrArg Prod.fst hinside
      rw [List.singleton_append, foldedFrom_cons, opensWideFrom_cons, and_iff_right (by simp),
        or_iff_right (by simp), ← hafter, ← hplace]
      exact ih
  | case4 c rest symbol beyond hconnective ih =>
      obtain ⟨word, htext, hquotes⟩ := exists_word_of_connective? hconnective
      rw [foldedFrom_word (foldOutside_symbol hconnective), ih, htext, opensWideFrom_word hquotes]
  | case5 c rest hconnective folded next hfolded ih =>
      have hplace := foldOutside_place c
      rw [hfolded] at hplace
      rw [opensWideFrom_cons, ← hplace]
      rcases foldOutside_outcome c with hquote | ⟨rfl, hwide⟩ | ⟨word, hplain, -, hword⟩
      · obtain ⟨rfl, rfl⟩ := Prod.mk.inj (hfolded.symm.trans hquote)
        rw [List.singleton_append, foldedFrom_cons, and_iff_right, or_iff_right]
        · exact ih
        · rintro ⟨-, rfl⟩
          cases hquote
        · exact fun _ => ⟨by decide, by decide, by decide, connective?_of_lt (by decide) _⟩
      · obtain ⟨rfl, rfl⟩ := Prod.mk.inj (hfolded.symm.trans hwide)
        refine iff_of_false (fun h => ?_) (not_not_intro (.inl ⟨rfl, rfl⟩))
        cases ((foldedFrom_cons.mp h).1 rfl).1
      · obtain ⟨rfl, rfl⟩ := Prod.mk.inj (hfolded.symm.trans hplain)
        have hc : ¬ (Quotation.outside = .outside ∧ c = '\uff02') := by
          rintro ⟨-, rfl⟩
          cases hplain
        rw [or_iff_right hc]
        by_cases hsame : folded = [c]
        · subst hsame
          obtain ⟨hform, hglyph, hcorner, hquote⟩ := settled_of_foldOutside hplain
          have hafter : Quotation.outside.after c = .outside :=
            if_neg (by simpa [isDoubleQuote] using isDoubleQuote_eq_false hquote)
          rw [List.singleton_append, foldedFrom_cons, hafter, and_iff_right, ih]
          exact fun _ => ⟨hform, hglyph, hcorner, connective?_foldGlyphsFrom hconnective⟩
        · have hsmall : ∀ d ∈ folded, foldOutside d = ([d], .outside) ∧ d.toNat < 128 := fun d hd =>
            ⟨(hword d hd).1, (hword d hd).2.resolve_right hsame⟩
          rw [foldedFrom_word hsmall, ih]

/-! ## Literals are kept -/

/-- The letters of the connectives. -/
def connectiveLetters : List Char :=
  ['か', 'つ', 'ま', 'た', 'は']

/-- No connective reaches over a character that is none of its letters. -/
theorem connective?_append_of_notMem {text rest : List Char}
    (hrest : ∀ c ∈ rest.head?, c ∉ connectiveLetters) :
    connective? (text ++ rest) = connective? text := by
  have hand : ∀ c ∈ rest.head?, c ∉ "かつ".toList := fun c hc hmem =>
    hrest c hc ((by decide : "かつ".toList ⊆ connectiveLetters) hmem)
  have hor : ∀ c ∈ rest.head?, c ∉ "または".toList := fun c hc hmem =>
    hrest c hc ((by decide : "または".toList ⊆ connectiveLetters) hmem)
  simp only [connective?, connectives, List.find?_cons, List.find?_nil,
    startsWithWord_append_eq hand, startsWithWord_append_eq hor]

/-- What follows a text is folded from the place to which the text leads. -/
theorem foldGlyphsFrom_past {place : Quotation} {text rest : List Char}
    (hrest : ∀ c ∈ rest.head?, c ∉ connectiveLetters) :
    foldGlyphsFrom place (text ++ rest) =
      foldGlyphsFrom place text ++ foldGlyphsFrom (place.past isQuote text) rest := by
  fun_induction foldGlyphsFrom place text with
  | case1 place => rfl
  | case2 c text ih =>
      rw [List.cons_append, foldGlyphsFrom_escaped, ih]
      rfl
  | case3 c text folded next hfolded ih =>
      have hplace := foldInside_place c
      rw [hfolded] at hplace
      rw [List.cons_append, foldGlyphsFrom_inside, hfolded, ih, List.append_assoc,
        Quotation.past_cons, ← hplace]
  | case4 c text symbol beyond hconnective ih =>
      have hagain := @connective?_append_of_notMem (c :: text) rest hrest
      have hlength := le_length_of_connective? hconnective
      obtain ⟨word, htext, hquotes⟩ := exists_word_of_connective? hconnective
      rw [hconnective] at hagain
      rw [htext, Quotation.past_append, Quotation.past_outside hquotes, ← htext]
      rw [List.cons_append] at hagain ⊢
      rw [foldGlyphsFrom_connective hagain, List.drop_append_of_le_length hlength, ih,
        List.append_assoc]
  | case5 c text hconnective folded next hfolded ih =>
      have hagain := @connective?_append_of_notMem (c :: text) rest hrest
      have hplace := foldOutside_place c
      rw [hfolded] at hplace
      rw [hconnective] at hagain
      rw [List.cons_append] at hagain ⊢
      rw [foldGlyphsFrom_outside hagain, hfolded, ih, List.append_assoc, Quotation.past_cons,
        ← hplace]

/-- Where no quote ends the string, a character inside stays as it is. -/
theorem foldInside_of_ne_outside {c : Char} (h : Quotation.inside.next isQuote c ≠ .outside) :
    foldInside c = ([c], Quotation.inside.next isQuote c) := by
  rw [← foldInside_place]
  rw [Quotation.next] at h
  split at h
  · next hslash => rw [foldInside, if_pos hslash]
  · next hslash =>
    have hquote : ¬ isQuote c = true := fun hquote => h (if_pos hquote)
    have hfold : foldInside c = ([c], .inside) := by
      rw [foldInside, if_neg hslash]
      exact if_neg hquote
    rw [hfold]

/-- The contents of a string that no quote ends are kept. -/
theorem foldGlyphsFrom_of_stays {place : Quotation} {contents : List Char}
    (h : place.Stays isQuote contents) (tail : List Char) :
    foldGlyphsFrom place (contents ++ tail) =
      contents ++ foldGlyphsFrom (place.past isQuote contents) tail := by
  induction contents generalizing place with
  | nil => rfl
  | cons c contents ih =>
      obtain ⟨hplace, hrest⟩ := Quotation.stays_cons.mp h
      cases place with
      | outside => exact absurd rfl hplace
      | inside =>
          rw [List.cons_append, foldGlyphsFrom_inside, foldInside_of_ne_outside hrest.ne_outside,
            ih hrest]
          rfl
      | escaped =>
          rw [List.cons_append, foldGlyphsFrom_escaped]
          exact congrArg (c :: ·) (ih hrest)

/-- Contents that are kept are ended by no quote of any spelling, if no double quote ends them. -/
theorem stays_of_foldGlyphsFrom {place : Quotation} {contents tail folded : List Char}
    (h : place.Stays isDoubleQuote contents)
    (hkept : foldGlyphsFrom place (contents ++ tail) = contents ++ folded) :
    place.Stays isQuote contents := by
  induction contents generalizing place with
  | nil => exact Quotation.stays_nil.mpr h.ne_outside
  | cons c contents ih =>
      obtain ⟨hplace, hrest⟩ := Quotation.stays_cons.mp h
      rw [Quotation.stays_cons]
      refine ⟨hplace, ?_⟩
      cases place with
      | outside => exact absurd rfl hplace
      | inside =>
          obtain ⟨d, hinside, -, hafter⟩ := foldInside_outcome c
          rw [List.cons_append, foldGlyphsFrom_inside, hinside] at hkept
          obtain ⟨rfl, hbehind⟩ := List.cons.inj hkept
          rw [← Quotation.next_isDoubleQuote] at hafter
          rw [hafter] at hbehind
          rw [← foldInside_place, hafter]
          exact ih hrest hbehind
      | escaped =>
          rw [List.cons_append, foldGlyphsFrom_escaped] at hkept
          exact ih hrest (List.cons.inj hkept).2

/-- Where no full-width quote opens a string, the double quotes of the folded text lead to where the
quotes of the text led. -/
theorem past_foldGlyphsFrom {place : Quotation} {text : List Char}
    (h : ¬ OpensWideFrom place text) :
    place.past isDoubleQuote (foldGlyphsFrom place text) = place.past isQuote text := by
  fun_induction foldGlyphsFrom place text with
  | case1 place => rfl
  | case2 c rest ih => exact ih fun hopens => h (opensWideFrom_cons.mpr (.inr hopens))
  | case3 c rest folded next hfolded ih =>
      obtain ⟨d, hinside, -, hafter⟩ := foldInside_outcome c
      have hplace := foldInside_place c
      rw [hfolded] at hinside hafter hplace
      obtain rfl : folded = [d] := congrArg Prod.fst hinside
      rw [opensWideFrom_cons, not_or, ← hplace] at h
      rw [List.singleton_append, Quotation.past_cons, Quotation.past_cons,
        Quotation.next_isDoubleQuote, ← hafter, ← hplace, ih h.2]
  | case4 c rest symbol beyond hconnective ih =>
      obtain ⟨word, htext, hquotes⟩ := exists_word_of_connective? hconnective
      have hsymbol : ∀ d ∈ symbol, isDoubleQuote d = false := fun d hd =>
        isDoubleQuote_eq_false
          (settled_of_foldOutside (foldOutside_symbol hconnective d hd).1).2.2.2
      rw [htext, opensWideFrom_word hquotes] at h
      rw [Quotation.past_append, Quotation.past_outside hsymbol, ih h, htext,
        Quotation.past_append, Quotation.past_outside hquotes]
  | case5 c rest hconnective folded next hfolded ih =>
      have hplace := foldOutside_place c
      rw [hfolded] at hplace
      rw [opensWideFrom_cons, not_or, ← hplace] at h
      rw [Quotation.past_append, Quotation.past_cons, ← hplace, ← ih h.2]
      congr 1
      rcases foldOutside_outcome c with hquote | ⟨rfl, -⟩ | ⟨word, hplain, -, hword⟩
      · obtain ⟨rfl, rfl⟩ := Prod.mk.inj (hfolded.symm.trans hquote)
        rfl
      · exact absurd ⟨rfl, rfl⟩ h.1
      · obtain ⟨rfl, rfl⟩ := Prod.mk.inj (hfolded.symm.trans hplain)
        exact Quotation.past_outside fun d hd =>
          isDoubleQuote_eq_false (settled_of_foldOutside (hword d hd).1).2.2.2

theorem foldGlyphs_literal (front contents behind : List Char)
    (hfront : Quotation.outside.past isQuote front = .outside) :
    foldGlyphs (front ++ '"' :: (contents ++ '"' :: behind)) =
      foldGlyphs front ++ '"' :: foldGlyphsFrom .inside (contents ++ '"' :: behind) := by
  rw [foldGlyphs, foldGlyphsFrom_past (by simp [connectiveLetters]), hfront,
    foldGlyphsFrom_outside (connective?_of_lt (by decide) _)]
  rfl

/-- Folding turns everything outside of literals into ASCII, and keeps literals.

Nothing is left to fold outside of the literals of the folded text exactly when no full-width quote
opens a string. A literal in double quotes that does not stand within a string in other quotes is
kept, with the texts around it folded by themselves, exactly when no other quote ends it either. And
where no full-width quote opens a string, the kept text is a literal again. -/
theorem foldGlyphs_folds_outside_literals (fragment : List Char) :
    (FoldedFrom .outside (foldGlyphs fragment) ↔ ¬ OpensWideFrom .outside fragment) ∧
    (∀ front contents behind, HasLiteral isDoubleQuote fragment front contents behind →
      Quotation.outside.past isQuote front = .outside →
      (foldGlyphs fragment = foldGlyphs front ++ '"' :: (contents ++ '"' :: foldGlyphs behind) ↔
        HasLiteral isQuote fragment front contents behind)) ∧
    (¬ OpensWideFrom .outside fragment → ∀ front contents behind,
      HasLiteral isQuote fragment front contents behind →
      HasLiteral isDoubleQuote (foldGlyphs fragment) (foldGlyphs front) contents
        (foldGlyphs behind)) := by
  have kept {front contents behind : List Char}
      (h : HasLiteral isQuote fragment front contents behind) :
      foldGlyphs fragment = foldGlyphs front ++ '"' :: (contents ++ '"' :: foldGlyphs behind) := by
    have hclose : foldInside '"' = (['"'], .outside) := rfl
    rw [h.text_eq, foldGlyphs_literal _ _ _ h.opens, foldGlyphsFrom_of_stays h.holds, h.closes,
      foldGlyphsFrom_inside, hclose]
    rfl
  refine ⟨foldedFrom_foldGlyphsFrom_iff _ _, ?_, ?_⟩
  · intro front contents behind h hfront
    refine ⟨fun hkept => ?_, kept⟩
    rw [h.text_eq, foldGlyphs_literal _ _ _ hfront] at hkept
    have hcontents := (List.cons.inj (List.append_cancel_left hkept)).2
    have hstays := stays_of_foldGlyphsFrom h.holds hcontents
    exact ⟨h.text_eq, hfront, hstays, hstays.past_isDoubleQuote ▸ h.closes⟩
  · intro hwide front contents behind h
    have hfront : ¬ OpensWideFrom .outside front := by
      rintro ⟨before, rest, rfl, hbefore⟩
      exact hwide ⟨before, rest ++ '"' :: (contents ++ '"' :: behind), by rw [h.text_eq]; simp,
        hbefore⟩
    exact ⟨kept h, (past_foldGlyphsFrom hfront).trans h.opens, h.holds.isDoubleQuote,
      h.holds.past_isDoubleQuote.trans h.closes⟩

/-- The fragment has a string in double quotes and one in corner brackets. -/
theorem foldGlyphs_folds_outside_literals_twoStrings :
    ¬ OpensWideFrom .outside "\"２×３かつ\"＋「ａ」".toList ∧
    HasLiteral isQuote "\"２×３かつ\"＋「ａ」".toList [] "２×３かつ".toList "＋「ａ」".toList ∧
    FoldedFrom .outside (foldGlyphs "\"２×３かつ\"＋「ａ」".toList) ∧
    HasLiteral isDoubleQuote (foldGlyphs "\"２×３かつ\"＋「ａ」".toList) (foldGlyphs [])
      "２×３かつ".toList (foldGlyphs "＋「ａ」".toList) := by
  have hnarrow : ¬ OpensWideFrom .outside "\"２×３かつ\"＋「ａ」".toList := by
    rintro ⟨front, behind, htext, -⟩
    have hmem : '\uff02' ∈ "\"２×３かつ\"＋「ａ」".toList := by
      rw [htext]
      simp
    exact absurd hmem (by decide)
  have hliteral : HasLiteral isQuote "\"２×３かつ\"＋「ａ」".toList [] "２×３かつ".toList
      "＋「ａ」".toList :=
    ⟨by with_unfolding_all decide, rfl, by with_unfolding_all decide, rfl⟩
  obtain ⟨hfolded, -, hkept⟩ := foldGlyphs_folds_outside_literals "\"２×３かつ\"＋「ａ」".toList
  exact ⟨hnarrow, hliteral, hfolded.mpr hnarrow, hkept hnarrow _ _ _ hliteral⟩

/-- A full-width quote that opens a string is still there in the folded text, outside of its
literals; and a corner bracket within a literal ends it, so that the literal is lost. -/
theorem foldGlyphs_misreads_quotes :
    foldGlyphs "＂ａ＂".toList = "＂ａ\"".toList ∧
    ¬ FoldedFrom .outside (foldGlyphs "＂ａ＂".toList) ∧
    HasLiteral isDoubleQuote "\"「\"".toList [] ['「'] [] ∧
    foldGlyphs "\"「\"".toList = "\"\"\"".toList ∧
    ∀ front behind, ¬ HasLiteral isDoubleQuote (foldGlyphs "\"「\"".toList) front ['「'] behind := by
  have hwide : foldGlyphs "＂ａ＂".toList = "＂ａ\"".toList := by with_unfolding_all rfl
  have hcorner : foldGlyphs "\"「\"".toList = "\"\"\"".toList := by with_unfolding_all rfl
  refine ⟨hwide, ?_, ⟨rfl, rfl, by decide, rfl⟩, hcorner, ?_⟩
  · rw [hwide]
    intro hfolded
    cases (hfolded [] '\uff02' "ａ\"".toList rfl rfl).1
  · intro front behind hliteral
    have hmem : '「' ∈ foldGlyphs "\"「\"".toList := by
      rw [hliteral.text_eq]
      simp
    rw [hcorner] at hmem
    exact absurd hmem (by decide)

end BlockCode
