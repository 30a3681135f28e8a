/- # Brackets as they are typed

The brackets of a slot are checked twice: in the text as it was typed, where only the ASCII
parentheses and the double quote count, and in the folded text, where those of every width do. A
slot is evenly typed where the two checks look at the same brackets: the quotes of other spellings
hide no ASCII parenthesis from one of them, and a parenthesis is closed by one of its own width. A
text that is evenly typed and has fine brackets when it is folded has fine brackets as it is.
-/

import BlockCode.Proofs.Fragment.Folding
import BlockCode.Proofs.Fragment.Balance

namespace BlockCode

/-! ## Parentheses outside of strings -/

/-- Whether the character is a parenthesis, in ASCII or in full width. -/
def isParen (c : Char) : Bool :=
  foldWidth c == '(' || foldWidth c == ')'

/-- The parentheses of a text outside of its strings, where the text starts at the place. -/
def outerParens (quote : Char → Bool) : Quotation → List Char → List Char
  | _, [] => []
  | place, c :: rest =>
    if place = .outside ∧ isParen c = true then c :: outerParens quote (place.next quote c) rest
    else outerParens quote (place.next quote c) rest

/-- Whether the ASCII parentheses close each other and what is open in front of them. -/
def closesAll : Nat → List Char → Bool
  | depth, [] => depth == 0
  | depth, c :: rest =>
    if c == '(' then closesAll (depth + 1) rest
    else if c == ')' then
      match depth with
      | 0 => false
      | depth + 1 => closesAll depth rest
    else closesAll depth rest

section

variable {depth : Nat} {c : Char} {parens : List Char}

theorem closesAll_left : closesAll depth ('(' :: parens) = closesAll (depth + 1) parens := by
  rw [closesAll.eq_def]
  rfl

theorem closesAll_right_zero : closesAll 0 (')' :: parens) = false := by
  rw [closesAll.eq_def]
  rfl

theorem closesAll_right_succ : closesAll (depth + 1) (')' :: parens) = closesAll depth parens := by
  rw [closesAll.eq_def]
  rfl

theorem closesAll_other (hleft : c ≠ '(') (hright : c ≠ ')') :
    closesAll depth (c :: parens) = closesAll depth parens := by
  rw [closesAll.eq_def]
  simp [hleft, hright]

end

/-- Whether each parenthesis that closes one of these, or another in the list, has the width of the
one that it closes. -/
def closesAlike (opened : List Char) : List Char → Bool
  | [] => true
  | c :: rest =>
    if foldWidth c == '(' then closesAlike (c :: opened) rest
    else
      match opened with
      | [] => closesAlike [] rest
      | o :: opened => ((o == '(') == (c == ')')) && closesAlike opened rest

/-- Whether each ASCII parenthesis is outside of strings for the quotes of every spelling just where
it is outside for the double quotes alone. The two readings of the text start at the places. -/
def readsAlike (place place' : Quotation) : List Char → Bool
  | [] => true
  | c :: rest =>
    (!(c == '(' || c == ')') || (place == .outside) == (place' == .outside))
      && readsAlike (place.next isDoubleQuote c) (place'.next isQuote c) rest

/-- Somewhere outside of strings a pair of ASCII parentheses with nothing in it stands behind a
full-width low line. -/
def CallsWideLine (text : List Char) : Prop :=
  ∃ front gap gap' behind, text = front ++ '＿' :: (gap ++ '(' :: (gap' ++ ')' :: behind)) ∧
    (∀ c ∈ gap, isBlank c = true) ∧ (∀ c ∈ gap', isBlank c = true) ∧
    Quotation.outside.past isQuote front = .outside

theorem not_callsWideLine {text : List Char} (h : '＿' ∉ text) : ¬ CallsWideLine text := by
  rintro ⟨front, gap, gap', behind, rfl, -⟩
  exact h (by simp)

/-- The brackets of the text are the same when it is folded. -/
structure EvenlyTyped (text : List Char) : Prop where
  reads : readsAlike .outside .outside text = true
  closes : closesAlike [] (outerParens isQuote .outside text) = true
  calls : ¬ CallsWideLine text

section

variable {quote : Char → Bool} {place : Quotation} {c : Char} {text text' : List Char}

theorem outerParens_append : outerParens quote place (text ++ text') =
    outerParens quote place text ++ outerParens quote (place.past quote text) text' := by
  induction text generalizing place with
  | nil => rfl
  | cons c text ih =>
      rw [List.cons_append, outerParens, outerParens, ih, Quotation.past_cons]
      split <;> rfl

/-- A text without parentheses has none outside of strings. -/
theorem outerParens_eq_nil (h : ∀ d ∈ text, isParen d = false) : outerParens quote place text =
    [] := by
  induction text generalizing place with
  | nil => rfl
  | cons c text ih =>
      rw [List.forall_mem_cons] at h
      rw [outerParens, if_neg (by simp [h.1]), ih h.2]

end

theorem isParen_of_mem_outerParens {quote : Char → Bool} {place : Quotation} {text : List Char} :
    ∀ c ∈ outerParens quote place text, isParen c = true := by
  induction text generalizing place with
  | nil => simp [outerParens]
  | cons c text ih =>
      rw [outerParens]
      split
      · next houter => exact List.forall_mem_cons.mpr ⟨houter.2, ih⟩
      · exact ih

theorem readsAlike_append {place place' : Quotation} {front text : List Char}
    (h : readsAlike place place' (front ++ text) = true) :
    readsAlike (place.past isDoubleQuote front) (place'.past isQuote front) text = true := by
  induction front generalizing place place' with
  | nil => exact h
  | cons c front ih =>
      rw [List.cons_append, readsAlike, Bool.and_eq_true] at h
      exact ih h.2

/-! ## Counting -/

namespace BracketScan

variable {scan : BracketScan} {place : Quotation} {text : List Char} {c : Char}

/-- What was wrong once stays wrong. -/
structure Stays (scan after : BracketScan) : Prop where
  outOfOrder : scan.outOfOrder = true → after.outOfOrder = true
  emptyPair : scan.emptyPair = true → after.emptyPair = true

theorem stays_see (scan : BracketScan) (c : Char) : Stays scan (scan.see c) := by
  rw [see]
  split
  · exact ⟨id, id⟩
  · split
    · exact ⟨fun h => by simp [h], fun h => by simp [h]⟩
    · exact ⟨id, id⟩

theorem stays_step (scan : BracketScan) (place : Quotation) (c : Char) :
    Stays scan (scan.step place c) := by
  cases place with
  | outside =>
      rw [step]
      split
      · exact ⟨id, id⟩
      · exact stays_see scan c
  | inside =>
      rw [step]
      split
      · exact stays_see scan c
      · exact ⟨id, id⟩
  | escaped => exact ⟨id, id⟩

theorem stays_scanFrom (scan : BracketScan) (place : Quotation) (text : List Char) :
    Stays scan (scan.scanFrom place text) := by
  induction text generalizing scan place with
  | nil =>
      rw [scanFrom_nil]
      exact ⟨id, id⟩
  | cons c text ih =>
      rw [scanFrom_cons]
      have hstep := stays_step scan place c
      have hrest := ih (scan.step place c) (place.after c)
      exact ⟨hrest.outOfOrder ∘ hstep.outOfOrder, hrest.emptyPair ∘ hstep.emptyPair⟩

/-- A character that is no parenthesis outside of strings is not counted. -/
theorem counts_step (h : place ≠ .outside ∨ c ≠ '(' ∧ c ≠ ')') :
    (scan.step place c).opened = scan.opened ∧ (scan.step place c).closed = scan.closed ∧
      (scan.step place c).outOfOrder = scan.outOfOrder := by
  have other {d : Char} (hleft : d ≠ '(') (hright : d ≠ ')') :
      (scan.see d).opened = scan.opened ∧ (scan.see d).closed = scan.closed ∧
        (scan.see d).outOfOrder = scan.outOfOrder := by
    rw [see, if_neg (by simpa using hleft), if_neg (by simpa using hright)]
    exact ⟨rfl, rfl, rfl⟩
  cases place with
  | outside =>
      obtain ⟨hleft, hright⟩ := h.resolve_left (by simp)
      rw [step]
      split
      · exact ⟨rfl, rfl, rfl⟩
      · exact other hleft hright
  | inside =>
      rw [step]
      split
      · next hquote =>
        rw [eq_of_beq hquote]
        exact other (by decide) (by decide)
      · exact ⟨rfl, rfl, rfl⟩
  | escaped => exact ⟨rfl, rfl, rfl⟩

/-- The counts are right at the end, and the order is kept, where the parentheses outside of strings
close each other. -/
theorem counts_iff (h : scan.closed ≤ scan.opened) :
    ((scan.scanFrom place text).opened = (scan.scanFrom place text).closed ∧
        (scan.scanFrom place text).outOfOrder = false) ↔
      scan.outOfOrder = false ∧
        closesAll (scan.opened - scan.closed) (outerParens isDoubleQuote place text) = true := by
  induction text generalizing scan place with
  | nil =>
      rw [scanFrom_nil, outerParens, closesAll, beq_iff_eq, and_comm]
      exact and_congr_right fun _ => by omega
  | cons c text ih =>
      rw [scanFrom_cons, outerParens, Quotation.next_isDoubleQuote]
      by_cases hparen : place = .outside ∧ (c = '(' ∨ c = ')')
      · obtain ⟨rfl, rfl | rfl⟩ := hparen
        · rw [if_pos ⟨rfl, rfl⟩, closesAll_left]
          refine (@ih (scan.see '(') _ (Nat.le_succ_of_le h)).trans ?_
          change scan.outOfOrder = false ∧ closesAll (scan.opened + 1 - scan.closed) _ = true ↔ _
          rw [Nat.sub_add_comm h]
        · rw [if_pos ⟨rfl, rfl⟩]
          change ((scan.see ')').scanFrom _ text).opened = _ ∧ _ ↔ _
          have horder : (scan.see ')').outOfOrder =
            (scan.outOfOrder || decide (scan.closed + 1 > scan.opened)) := rfl
          cases hdepth : scan.opened - scan.closed with
          | zero =>
              refine iff_of_false (fun hend => ?_) (by simp [closesAll_right_zero])
              have hwrong : (scan.see ')').outOfOrder = true := by
                rw [horder, decide_eq_true (by omega), Bool.or_true]
              have hstays := (stays_scanFrom _ (Quotation.outside.after ')') text).outOfOrder hwrong
              exact absurd (hstays.symm.trans hend.2) (by decide)
          | succ depth =>
              have hle : scan.closed + 1 ≤ scan.opened := by omega
              have hless : scan.opened - (scan.closed + 1) = depth := by omega
              refine (@ih (scan.see ')') _ hle).trans ?_
              rw [horder, decide_eq_false (by omega), Bool.or_false, closesAll_right_succ]
              change _ ∧ closesAll (scan.opened - (scan.closed + 1)) _ = true ↔ _
              rw [hless]
      · obtain ⟨hopened, hclosed, horder⟩ := @counts_step scan place c (by tauto)
        rw [ih (by rw [hopened, hclosed]; exact h), hopened, hclosed, horder]
        refine and_congr_right fun _ => ?_
        split
        · next houter =>
          have hother : c ≠ '(' ∧ c ≠ ')' := by tauto
          rw [closesAll_other hother.1 hother.2]
        · rfl

/-- So it is for a scan that starts. -/
theorem closes_iff (place : Quotation) (text : List Char) :
    ((scanFrom {} place text).opened = (scanFrom {} place text).closed ∧
        (scanFrom {} place text).outOfOrder = false) ↔
      closesAll 0 (outerParens isDoubleQuote place text) = true :=
  (counts_iff (le_refl 0)).trans (and_iff_right rfl)

end BracketScan

/-! ## The parentheses of the folded text -/

/-- A parenthesis outside of strings becomes one in ASCII, and nothing else becomes one. -/
theorem outerParens_foldOutside {c : Char} {word : List Char}
    (h : foldOutside c = (word, .outside)) :
    outerParens isDoubleQuote .outside word = if isParen c then [foldWidth c] else [] := by
  rw [foldOutside] at h
  split at h
  · cases h
  · split at h
    · next replacement hglyph =>
      obtain ⟨rfl, -⟩ := Prod.mk.inj h
      have hreplacements : ∀ entry ∈ operatorGlyphs,
          ∀ d ∈ entry.2.toList, isParen d = false := by
        decide
      have hparen : ¬ isParen c = true := by
        simp only [isParen, Bool.or_eq_true, beq_iff_eq]
        rintro (hc | hc) <;>
          · rw [hc] at hglyph
            cases hglyph
      rw [if_neg hparen, outerParens_eq_nil (hreplacements _ (mem_operatorGlyphs hglyph))]
    · split at h
      · cases h
      · obtain ⟨rfl, -⟩ := Prod.mk.inj h
        rw [outerParens, outerParens, isParen, foldWidth_foldWidth, isParen]
        simp

theorem isParen_of_isQuote {c : Char} (h : isQuote c = true) : isParen c = false := by
  rw [← Bool.not_eq_true]
  intro hparen
  simp only [isParen, Bool.or_eq_true, beq_iff_eq] at hparen
  simp only [isQuote, Bool.or_eq_true, isCornerBracket, beq_iff_eq] at h
  rcases h with (rfl | rfl) | hc
  · revert hparen
    decide
  · revert hparen
    decide
  · rw [hc] at hparen
    revert hparen
    decide

/-- Where no full-width quote opens a string, the parentheses outside of strings are those of the
text in ASCII. -/
theorem outerParens_foldGlyphsFrom {place : Quotation} {text : List Char}
    (h : ¬ OpensWideFrom place text) :
    outerParens isDoubleQuote place (foldGlyphsFrom place text) =
      (outerParens isQuote place text).map foldWidth := by
  fun_induction foldGlyphsFrom place text with
  | case1 place => rfl
  | case2 c rest ih => exact ih fun hopens => h (opensWideFrom_cons.mpr (.inr hopens))
  | case3 c rest folded next hfolded ih =>
      obtain ⟨d, hinside, -, hafter⟩ := foldInside_outcome c
      have hplace := foldInside_place c
      rw [hfolded] at hinside hafter hplace
      obtain rfl : folded = [d] := congrArg Prod.fst hinside
      rw [opensWideFrom_cons, not_or, ← hplace] at h
      rw [List.singleton_append, outerParens, outerParens, if_neg (by simp), if_neg (by simp),
        Quotation.next_isDoubleQuote, ← hafter, ← hplace, ih h.2]
  | case4 c rest symbol beyond hconnective ih =>
      obtain ⟨word, hword, -, htext⟩ := exists_eq_append_of_connective? hconnective
      have hplain : ∀ word ∈ ["かつ".toList, "または".toList],
          ∀ d ∈ word, isQuote d = false ∧ isParen d = false := by
        decide
      have hquotes : ∀ d ∈ word, isQuote d = false := fun d hd => (hplain word hword d hd).1
      have hsymbol : ∀ d ∈ symbol, isDoubleQuote d = false ∧ isParen d = false := by
        rcases mem_of_connective? hconnective with rfl | rfl <;> decide
      rw [htext, opensWideFrom_word hquotes] at h
      rw [htext, outerParens_append, outerParens_append,
        outerParens_eq_nil fun d hd => (hsymbol d hd).2,
        outerParens_eq_nil fun d hd => (hplain word hword d hd).2,
        Quotation.past_outside fun d hd => (hsymbol d hd).1, Quotation.past_outside hquotes,
        List.nil_append, List.nil_append, ih h]
  | case5 c rest hconnective folded next hfolded ih =>
      have hplace := foldOutside_place c
      rw [hfolded] at hplace
      rw [opensWideFrom_cons, not_or, ← hplace] at h
      rw [outerParens_append, outerParens, ← hplace]
      rcases foldOutside_outcome c with hquote | ⟨rfl, -⟩ | ⟨word, hplain, -, hword⟩
      · obtain ⟨rfl, rfl⟩ := Prod.mk.inj (hfolded.symm.trans hquote)
        have hparen : ¬ isParen c = true := by
          rw [Bool.not_eq_true]
          apply isParen_of_isQuote
          rw [Quotation.next] at hplace
          split at hplace
          · assumption
          · cases hplace
        rw [if_neg fun hc => hparen hc.2, ← ih h.2]
        rfl
      · exact absurd ⟨rfl, rfl⟩ h.1
      · obtain ⟨rfl, rfl⟩ := Prod.mk.inj (hfolded.symm.trans hplain)
        have hquotes : ∀ d ∈ folded, isDoubleQuote d = false := fun d hd =>
          isDoubleQuote_eq_false (settled_of_foldOutside (hword d hd).1).2.2.2
        rw [outerParens_foldOutside hplain, Quotation.past_outside hquotes, ih h.2]
        by_cases hparen : isParen c = true
        · rw [if_pos hparen, if_pos ⟨rfl, hparen⟩]
          rfl
        · rw [if_neg hparen, if_neg fun hc => hparen hc.2]
          rfl

/-- The two readings see the same ASCII parentheses. -/
theorem closesAll_outerParens {place place' : Quotation} {text : List Char} {depth : Nat}
    (h : readsAlike place place' text = true) :
    closesAll depth (outerParens isDoubleQuote place text) =
      closesAll depth (outerParens isQuote place' text) := by
  induction text generalizing place place' depth with
  | nil => rfl
  | cons c text ih =>
      rw [readsAlike, Bool.and_eq_true] at h
      obtain ⟨hc, hrest⟩ := h
      rw [outerParens, outerParens]
      by_cases hascii : (c == '(' || c == ')') = true
      · have hplaces : place = .outside ↔ place' = .outside := by
          rw [hascii] at hc
          simpa using hc
        by_cases houter : place = .outside ∧ isParen c = true
        · rw [if_pos houter, if_pos ⟨hplaces.mp houter.1, houter.2⟩, closesAll.eq_def,
            closesAll.eq_def]
          simp only [ih hrest]
        · rw [if_neg houter, if_neg fun hc => houter ⟨hplaces.mpr hc.1, hc.2⟩, ih hrest]
      · -- What is no ASCII parenthesis is passed over whether it stands outside of strings or not.
        have hother : c ≠ '(' ∧ c ≠ ')' := by simpa using hascii
        have skip {p : Prop} [Decidable p] {depth : Nat} {parens : List Char} :
            closesAll depth (if p then c :: parens else parens) = closesAll depth parens := by
          split
          · exact closesAll_other hother.1 hother.2
          · rfl
        rw [skip, skip, ih hrest]

/-- Parentheses that close each other in ASCII close each other as they were typed, where each has
the width of the one that it closes. -/
theorem closesAll_of_closesAlike {opened parens : List Char}
    (hparens : ∀ c ∈ parens, isParen c = true)
    (h : closesAll opened.length (parens.map foldWidth) = true)
    (halike : closesAlike opened parens = true) :
    closesAll (opened.count '(') parens = true := by
  induction parens generalizing opened with
  | nil =>
      rw [List.map_nil, closesAll, beq_iff_eq, List.length_eq_zero_iff] at h
      rw [h]
      rfl
  | cons c parens ih =>
      rw [List.forall_mem_cons] at hparens
      rw [List.map_cons] at h
      rw [closesAlike.eq_def] at halike
      dsimp only at halike
      by_cases hleft : foldWidth c = '('
      · rw [hleft, closesAll_left] at h
        rw [if_pos (beq_iff_eq.mpr hleft)] at halike
        have hrest := @ih (c :: opened) hparens.2 h halike
        by_cases hc : c = '('
        · rw [hc, List.count_cons_self] at hrest
          rw [hc, closesAll_left, hrest]
        · have hright : c ≠ ')' := by
            rintro rfl
            exact absurd hleft (by decide)
          rw [List.count_cons_of_ne hc] at hrest
          rw [closesAll_other hc hright, hrest]
      · have hright : foldWidth c = ')' := by
          have hparen := hparens.1
          rw [isParen, Bool.or_eq_true, beq_iff_eq, beq_iff_eq] at hparen
          exact hparen.resolve_left hleft
        rw [if_neg (mt beq_iff_eq.mp hleft)] at halike
        have hc : c ≠ '(' := by
          rintro rfl
          exact absurd hright (by decide)
        rw [hright] at h
        cases opened with
        | nil =>
            rw [List.length_nil, closesAll_right_zero] at h
            cases h
        | cons o opened =>
            rw [List.length_cons, closesAll_right_succ] at h
            simp only [Bool.and_eq_true, beq_iff_eq] at halike
            have hrest := ih hparens.2 h halike.2
            by_cases hascii : c = ')'
            · have ho : o = '(' := by simpa [hascii] using halike.1
              rw [ho, hascii, List.count_cons_self, closesAll_right_succ, hrest]
            · have ho : o ≠ '(' := by
                intro ho
                simp [ho, hascii] at halike
              rw [List.count_cons_of_ne ho, closesAll_other hc hascii, hrest]

/-! ## Empty pairs -/

namespace BracketScan

variable {scan : BracketScan} {text : List Char} {c : Char}

theorem scanFrom_concat {place : Quotation} : scan.scanFrom place (text ++ [c]) =
    (scan.scanFrom place text).step (place.past isDoubleQuote text) c := by
  rw [scanFrom_append, scanFrom_cons, scanFrom_nil]

theorem previous_see : (scan.see c).previous = some c := by
  rw [see]
  split
  · rfl
  · split <;> rfl

/-- A pair that is open behind a character was open in front of it, or the character opens it. -/
theorem beforeOpen_step {place : Quotation} {before : Option Char}
    (h : (scan.step place c).beforeOpen = some before) :
    (place = .outside ∧ c = '(' ∧ scan.previous = before) ∨
      (scan.beforeOpen = some before ∧ (place = .outside → isBlank c = true)) := by
  have hsee (h : (scan.see c).beforeOpen = some before) : c = '(' ∧ scan.previous = before := by
    rw [see] at h
    split at h
    · next hleft => exact ⟨eq_of_beq hleft, Option.some.inj h⟩
    · split at h <;> cases h
  cases place with
  | outside =>
      rw [step] at h
      split at h
      · next hblank => exact .inr ⟨h, fun _ => hblank⟩
      · exact .inl ⟨rfl, hsee h⟩
  | inside =>
      rw [step] at h
      split at h
      · next hquote =>
        rw [eq_of_beq hquote] at hsee h
        cases (hsee h).1
      · exact .inr ⟨h, fun hplace => absurd hplace (by decide)⟩
  | escaped => exact .inr ⟨h, fun hplace => absurd hplace (by decide)⟩

/-- A pair is found empty where it closes. -/
theorem emptyPair_step {place : Quotation} (h : (scan.step place c).emptyPair = true) :
    scan.emptyPair = true ∨ place = .outside ∧ c = ')' ∧
      ∃ before, scan.beforeOpen = some before ∧ before.any endsName = false := by
  have hsee (h : (scan.see c).emptyPair = true) : scan.emptyPair = true ∨ c = ')' ∧
      ∃ before, scan.beforeOpen = some before ∧ before.any endsName = false := by
    rw [see] at h
    split at h
    · exact .inl h
    · split at h
      · next hright =>
        rw [Bool.or_eq_true, Option.any_eq_true] at h
        refine h.imp_right fun hopen => ?_
        obtain ⟨before, hbefore, hends⟩ := hopen
        exact ⟨eq_of_beq hright, before, hbefore, by simpa using hends⟩
      · exact .inl h
  cases place with
  | outside =>
      rw [step] at h
      split at h
      · exact .inl h
      · exact (hsee h).imp_right fun hnew => ⟨rfl, hnew⟩
  | inside =>
      rw [step] at h
      split at h
      · next hquote =>
        rw [eq_of_beq hquote] at hsee h
        exact .inl ((hsee h).resolve_right fun hnew => absurd hnew.1 (by decide))
      · exact .inl h
  | escaped => exact .inl h

/-- Where nothing but white space has followed a parenthesis, the text ends so. -/
theorem exists_gap_of_beforeOpen {before : Option Char}
    (h : (scanFrom {} .outside text).beforeOpen = some before) :
    ∃ front gap, text = front ++ '(' :: gap ∧ (∀ c ∈ gap, isBlank c = true) ∧
      Quotation.outside.past isDoubleQuote front = .outside ∧
      (scanFrom {} .outside front).previous = before := by
  induction text using List.reverseRecOn with
  | nil =>
      rw [scanFrom_nil] at h
      cases h
  | append_singleton text c ih =>
      rw [scanFrom_concat] at h
      rcases beforeOpen_step h with ⟨hplace, rfl, hprevious⟩ | ⟨hopen, hblank⟩
      · exact ⟨text, [], rfl, by simp, hplace, hprevious⟩
      · obtain ⟨front, gap, rfl, hgap, hfront, hprevious⟩ := ih hopen
        have hplace : Quotation.outside.past isDoubleQuote (front ++ '(' :: gap) = .outside := by
          rw [Quotation.past_append, hfront, Quotation.past_cons]
          exact past_blank hgap
        refine ⟨front, gap ++ [c], by simp, ?_, hfront, hprevious⟩
        exact List.forall_mem_append.mpr ⟨hgap, List.forall_mem_singleton.mpr (hblank hplace)⟩

/-- An empty pair is one that stands in the text behind no name. -/
theorem emptyPair_iff : (scanFrom {} .outside text).emptyPair = true ↔
    ∃ front gap behind, text = front ++ '(' :: (gap ++ ')' :: behind) ∧
      (∀ c ∈ gap, isBlank c = true) ∧ Quotation.outside.past isDoubleQuote front = .outside ∧
      (scanFrom {} .outside front).previous.any endsName = false := by
  constructor
  · intro h
    induction text using List.reverseRecOn with
    | nil =>
        rw [scanFrom_nil] at h
        cases h
    | append_singleton text c ih =>
        rw [scanFrom_concat] at h
        rcases emptyPair_step h with hold | ⟨-, rfl, before, hopen, hname⟩
        · obtain ⟨front, gap, behind, rfl, hpair⟩ := ih hold
          exact ⟨front, gap, behind ++ [c], by simp, hpair⟩
        · obtain ⟨front, gap, rfl, hgap, hfront, rfl⟩ := exists_gap_of_beforeOpen hopen
          exact ⟨front, gap, [], by simp, hgap, hfront, hname⟩
  · rintro ⟨front, gap, behind, rfl, hgap, hfront, hname⟩
    rw [scanFrom_append, hfront, scanFrom_cons]
    change (((scanFrom {} .outside front).see '(').scanFrom .outside _).emptyPair = true
    rw [scanFrom_append, scanFrom_blank hgap, past_blank hgap, scanFrom_cons]
    refine (stays_scanFrom _ _ behind).emptyPair ?_
    change (_ || !(scanFrom {} .outside front).previous.any endsName) = true
    rw [hname, Bool.not_false, Bool.or_true]

end BracketScan

/-- White space is folded to white space. -/
theorem foldOutside_of_isBlank {c : Char} (h : isBlank c = true) :
    isQuote c = false ∧ c ∉ connectiveLetters ∧ (foldOutside c).2 = .outside ∧
      ∀ d ∈ (foldOutside c).1, isBlank d = true :=
  forall_isBlank (P := fun c => isQuote c = false ∧ c ∉ connectiveLetters ∧
    (foldOutside c).2 = .outside ∧ ∀ d ∈ (foldOutside c).1, isBlank d = true) (by decide) h

/-- A class in ascending order has every code point of its ranges. -/
theorem CharClass.hasCode_of_mem {ranges : CharClass} {range : Nat × Nat} {code : Nat}
    (hsorted : ranges.IsChain (·.1 ≤ ·.1)) (hmem : range ∈ ranges)
    (hcode : range.1 ≤ code ∧ code ≤ range.2) : ranges.hasCode code = true := by
  have hpairs : ranges.Pairwise (·.1 ≤ ·.1) := List.isChain_iff_pairwise.mp hsorted
  clear hsorted
  induction ranges with
  | nil => cases hmem
  | cons first rest ih =>
      rw [List.pairwise_cons] at hpairs
      rw [hasCode]
      rcases List.mem_cons.mp hmem with rfl | hrest
      · rw [if_neg (by omega), if_pos hcode.2]
      · have hfirst := hpairs.1 range hrest
        rw [if_neg (by omega)]
        split
        · rfl
        · exact ih hrest hpairs.2

/-- What a name may end with in full width, it may end with in ASCII, but for the low line. -/
theorem endsName_of_foldWidth {c : Char} (h : BracketScan.endsName (foldWidth c) = true) :
    BracketScan.endsName c = true ∨ c = '＿' := by
  cases hform : isFullWidthForm c with
  | false =>
      rw [foldWidth_eq_self hform] at h
      exact .inl h
  | true =>
      have hrange : 0xFF01 ≤ c.toNat ∧ c.toNat ≤ 0xFF5E := by simpa [isFullWidthForm] using hform
      have hplain : ∀ n ∈ List.range' 0x21 94, BracketScan.endsName (Char.ofNat n) = true →
          0x41 ≤ n ∧ n ≤ 0x5A ∨ 0x61 ≤ n ∧ n ≤ 0x7A ∨ 0x30 ≤ n ∧ n ≤ 0x39 ∨ n = 0x5F := by
        decide
      have hletters : letterClass.IsChain (·.1 ≤ ·.1) ∧ (0xFF21, 0xFF3A) ∈ letterClass ∧
          (0xFF41, 0xFF5A) ∈ letterClass := by
        decide +kernel
      have hnumerals : numeralClass.IsChain (·.1 ≤ ·.1) ∧ (0xFF10, 0xFF19) ∈ numeralClass := by
        decide +kernel
      have hcode := toNat_foldWidth hrange
      have hends := hplain (foldWidth c).toNat (List.mem_range'_1.mpr (by omega))
      rw [Char.ofNat_toNat, hcode] at hends
      rw [BracketScan.endsName, isAlphanumeric, isLetter, isNumeral, CharClass.has, CharClass.has]
      rcases hends h with hupper | hlower | hdigit | hline
      · rw [CharClass.hasCode_of_mem hletters.1 hletters.2.1 (by dsimp only; omega)]
        exact .inl rfl
      · rw [CharClass.hasCode_of_mem hletters.1 hletters.2.2 (by dsimp only; omega)]
        exact .inl rfl
      · rw [CharClass.hasCode_of_mem hnumerals.1 hnumerals.2 (by dsimp only; omega)]
        exact .inl (by simp)
      · refine .inr ?_
        rw [← Char.ofNat_toNat c, show c.toNat = 0xFF3F by omega]

/-- Only white space becomes a space. -/
theorem eq_of_operatorGlyph?_space {c : Char} (h : operatorGlyph? c = some " ") : c = '\u3000' := by
  have hspace : ∀ entry ∈ operatorGlyphs, entry.2 = " " → entry.1 = '\u3000' := by decide
  exact hspace _ (mem_operatorGlyphs h) rfl

/-- A character outside of strings that is neither white space nor a quote becomes a word that ends
as a name may only if the character does, or is a full-width low line. -/
theorem exists_last_of_foldOutside {c : Char} (hblank : isBlank c = false)
    (hquote : isQuote c = false) :
    ∃ word last, foldOutside c = (word ++ [last], .outside) ∧ isBlank last = false ∧
      (∀ d ∈ word, isDoubleQuote d = false) ∧
      (BracketScan.endsName last = true → BracketScan.endsName c = true ∨ c = '＿') := by
  have hcorner : isCornerBracket c = false := (Bool.or_eq_false_iff.mp hquote).1
  have hdouble : (foldWidth c == '"') = false := (Bool.or_eq_false_iff.mp hquote).2
  rw [foldOutside, hcorner, hdouble, if_neg Bool.false_ne_true, if_neg Bool.false_ne_true]
  split
  · next replacement hglyph =>
    have hspace : replacement ≠ " " := by
      rintro rfl
      have hc := eq_of_foldWidth_eq (eq_of_operatorGlyph?_space hglyph) (by decide)
      rw [hc] at hblank
      exact absurd hblank (by decide)
    have hreplacements : ∀ entry ∈ operatorGlyphs,
        entry.2 ≠ " " → (∃ last ∈ ['*', '/', '-', '=', ','],
          entry.2.toList.getLast? = some last) ∧
            ∀ d ∈ entry.2.toList.dropLast, isDoubleQuote d = false := by
      decide
    have hsigns : ∀ last ∈ ['*', '/', '-', '=', ','],
        isBlank last = false ∧ BracketScan.endsName last = false := by
      decide
    obtain ⟨⟨last, hsign, hlast⟩, hquotes⟩ :=
      hreplacements _ (mem_operatorGlyphs hglyph) hspace
    refine ⟨replacement.toList.dropLast, last, ?_, (hsigns last hsign).1, hquotes, ?_⟩
    · rw [List.dropLast_append_getLast? last hlast]
    · simp [(hsigns last hsign).2]
  · refine ⟨[], foldWidth c, rfl, ?_, by simp, endsName_of_foldWidth⟩
    rw [← Bool.not_eq_true]
    intro hfolded
    rw [← eq_of_foldWidth_eq rfl (code_of_isBlank hfolded), hblank] at hfolded
    cases hfolded

/-- What stood in front of a place outside of strings ends a name if what it was folded to does, but
for the full-width low line. -/
theorem endsName_of_foldGlyphs {front : List Char}
    (htyped : Quotation.outside.past isQuote front = .outside)
    (hplain : Quotation.outside.past isDoubleQuote front = .outside)
    (hwide : ¬ OpensWideFrom .outside front)
    (h : (BracketScan.scanFrom {} .outside (foldGlyphs front)).previous.any
      BracketScan.endsName = true) :
    (BracketScan.scanFrom {} .outside front).previous.any BracketScan.endsName = true ∨
      ∃ before gap, front = before ++ '＿' :: gap ∧ (∀ c ∈ gap, isBlank c = true) ∧
        Quotation.outside.past isQuote before = .outside := by
  induction front using List.reverseRecOn with
  | nil =>
      rw [foldGlyphs, foldGlyphsFrom_nil, BracketScan.scanFrom_nil] at h
      cases h
  | append_singleton front c ih =>
      have hwide' : ¬ OpensWideFrom .outside front := by
        rintro ⟨before, behind, rfl, hbefore⟩
        exact hwide ⟨before, behind ++ [c], by simp, hbefore⟩
      rw [Quotation.past_append, Quotation.past_cons, Quotation.past_nil] at htyped hplain
      rw [BracketScan.scanFrom_concat]
      by_cases hquote : isQuote c = true
      · -- A quote that leads outside is folded to one, which ends no name.
        have hletter : c ∉ connectiveLetters := fun hmem => by
          rw [(by decide : ∀ d ∈ connectiveLetters, isQuote d = false) c hmem] at hquote
          cases hquote
        have hinside : Quotation.outside.past isQuote front = .inside := by
          cases hplace : Quotation.outside.past isQuote front with
          | inside => rfl
          | outside =>
              rw [hplace, Quotation.next, if_pos hquote] at htyped
              cases htyped
          | escaped =>
              rw [hplace] at htyped
              cases htyped
        have hfold : foldGlyphsFrom .inside [c] = ['"'] := by
          have hslash : ¬ (c == '\\') = true := fun hslash => by
            rw [eq_of_beq hslash] at hquote
            cases hquote
          have hclose : foldInside c = (['"'], .outside) := (if_neg hslash).trans (if_pos hquote)
          rw [foldGlyphsFrom_inside, hclose, foldGlyphsFrom_nil]
          rfl
        rw [foldGlyphs, foldGlyphsFrom_past (by simpa using hletter), hinside, hfold,
          BracketScan.scanFrom_concat, past_foldGlyphsFrom hwide', hinside] at h
        change ((BracketScan.see _ '"').previous.any _) = true at h
        rw [BracketScan.previous_see] at h
        exact absurd h (by decide)
      · rw [Bool.not_eq_true] at hquote
        have htyped' := Quotation.eq_outside_of_next hquote htyped
        have hplain' := Quotation.eq_outside_of_next (isDoubleQuote_eq_false hquote) hplain
        rw [hplain', BracketScan.step]
        by_cases hletter : c ∈ connectiveLetters
        · -- The letters of connectives end names themselves.
          have hends : ∀ d ∈ connectiveLetters,
              isBlank d = false ∧ BracketScan.endsName d = true := by
            decide +kernel
          rw [(hends c hletter).1, if_neg Bool.false_ne_true, BracketScan.previous_see]
          exact .inl (hends c hletter).2
        · have hnone : connective? [c] = none := by
            cases hfound : connective? [c] with
            | none => rfl
            | some found =>
                have hmem := mem_of_connective?_cons hfound
                exact absurd ((by decide : ['か', 'ま'] ⊆ connectiveLetters) hmem) hletter
          rw [foldGlyphs, foldGlyphsFrom_past (by simpa using hletter), htyped',
            foldGlyphsFrom_outside hnone, foldGlyphsFrom_nil, List.append_nil,
            BracketScan.scanFrom_append, past_foldGlyphsFrom hwide', htyped'] at h
          by_cases hblank : isBlank c = true
          · rw [if_pos hblank]
            rw [BracketScan.scanFrom_blank (foldOutside_of_isBlank hblank).2.2.2] at h
            refine (ih htyped' hplain' hwide' h).imp_right ?_
            rintro ⟨before, gap, rfl, hgap, hbefore⟩
            refine ⟨before, gap ++ [c], by simp, ?_, hbefore⟩
            exact List.forall_mem_append.mpr ⟨hgap, List.forall_mem_singleton.mpr hblank⟩
          · rw [Bool.not_eq_true] at hblank
            obtain ⟨word, last, hfold, hlast, hquotes, hends⟩ :=
              exists_last_of_foldOutside hblank hquote
            rw [hfold, BracketScan.scanFrom_concat, Quotation.past_outside hquotes,
              BracketScan.step, hlast, if_neg Bool.false_ne_true, BracketScan.previous_see] at h
            rw [hblank, if_neg Bool.false_ne_true, BracketScan.previous_see]
            refine (hends h).imp_right ?_
            rintro rfl
            exact ⟨front, [], rfl, by simp, htyped'⟩

/-- In a closed folded text no full-width quote opens a string. -/
theorem not_opensWideFrom_of_closesFrom {place : Quotation} {text : List Char}
    (h : closesFrom place (foldGlyphsFrom place text) = true) : ¬ OpensWideFrom place text := by
  fun_induction foldGlyphsFrom place text with
  | case1 place => simp [OpensWideFrom]
  | case2 c rest ih =>
      rw [opensWideFrom_cons, or_iff_right (by simp)]
      exact ih h
  | case3 c rest folded next hfolded ih =>
      have hplace := foldInside_place c
      have hinside := closesFrom_foldInside c (foldGlyphsFrom next rest)
      rw [hfolded] at hplace hinside
      rw [opensWideFrom_cons, or_iff_right (by simp), ← hplace]
      exact ih (hinside ▸ h)
  | case4 c rest symbol beyond hconnective ih =>
      obtain ⟨word, htext, hquotes⟩ := exists_word_of_connective? hconnective
      have hsymbol : ∀ d ∈ symbol, d ≠ '"' ∧ d ≠ '\uff02' := by
        rcases mem_of_connective? hconnective with rfl | rfl <;> decide
      rw [htext, opensWideFrom_word hquotes]
      exact ih (closesFrom_append hsymbol _ ▸ h)
  | case5 c rest hconnective folded next hfolded ih =>
      have hplace := foldOutside_place c
      have houtside := @closesFrom_foldOutside c (foldGlyphsFrom next rest)
      rw [hfolded] at hplace houtside
      rw [opensWideFrom_cons, ← hplace, or_iff_right]
      · exact ih (houtside h)
      · rintro ⟨-, rfl⟩
        obtain ⟨rfl, rfl⟩ := Prod.mk.inj hfolded
        cases h

/-! ## Evenly typed texts -/

theorem foldGlyphsFrom_blank {gap : List Char} (h : ∀ c ∈ gap, isBlank c = true) :
    (∀ d ∈ foldGlyphsFrom .outside gap, isBlank d = true) ∧
      Quotation.outside.past isQuote gap = .outside := by
  refine ⟨?_, Quotation.past_outside fun c hc => (foldOutside_of_isBlank (h c hc)).1⟩
  induction gap with
  | nil => simp [foldGlyphsFrom_nil]
  | cons c gap ih =>
      rw [List.forall_mem_cons] at h
      obtain ⟨-, hletter, hplace, hword⟩ := foldOutside_of_isBlank h.1
      have hnone : connective? (c :: gap) = none := by
        cases hfound : connective? (c :: gap) with
        | none => rfl
        | some found =>
            have hmem := mem_of_connective?_cons hfound
            exact absurd ((by decide : ['か', 'ま'] ⊆ connectiveLetters) hmem) hletter
      rw [foldGlyphsFrom_outside hnone, hplace, List.forall_mem_append]
      exact ⟨hword, ih h.2⟩

/-- An empty pair outside of strings is folded to one. -/
theorem foldGlyphs_emptyPair {front gap : List Char} (behind : List Char)
    (hfront : Quotation.outside.past isQuote front = .outside)
    (hgap : ∀ c ∈ gap, isBlank c = true) :
    ∃ gap' behind', foldGlyphs (front ++ '(' :: (gap ++ ')' :: behind)) =
      foldGlyphs front ++ '(' :: (gap' ++ ')' :: behind') ∧ ∀ c ∈ gap', isBlank c = true := by
  have hopening : foldOutside '(' = (['('], .outside) := by decide
  have hclosing : foldOutside ')' = ([')'], .outside) := by decide
  obtain ⟨hfolded, hpast⟩ := foldGlyphsFrom_blank hgap
  refine ⟨foldGlyphsFrom .outside gap, foldGlyphsFrom .outside behind, ?_, hfolded⟩
  rw [foldGlyphs, foldGlyphsFrom_past (by simp [connectiveLetters]), hfront,
    foldGlyphsFrom_outside (connective?_of_lt (by decide) _), hopening,
    foldGlyphsFrom_past (by simp [connectiveLetters]), hpast,
    foldGlyphsFrom_outside (connective?_of_lt (by decide) _), hclosing]
  rfl

/-- An evenly typed text has fine brackets if it has fine brackets when it is folded and is closed
then. -/
theorem EvenlyTyped.bracketErrors_eq_nil {text : List Char} (htext : EvenlyTyped text)
    (hclosed : closesFrom .outside (foldGlyphs text) = true)
    (h : bracketErrors [foldGlyphs text] = []) : bracketErrors [text] = [] := by
  have hwide := not_opensWideFrom_of_closesFrom hclosed
  rw [bracketErrors_singleton, BracketScan.errors_eq_nil_iff] at h ⊢
  obtain ⟨hcounts, horder, hempty⟩ := h
  -- The counts and the order are those of the parentheses outside of strings.
  have hfolded := (BracketScan.closes_iff .outside (foldGlyphs text)).mp ⟨hcounts, horder⟩
  rw [foldGlyphs, outerParens_foldGlyphsFrom hwide] at hfolded
  have htyped := @closesAll_of_closesAlike [] _ isParen_of_mem_outerParens hfolded htext.closes
  have hraw := (BracketScan.closes_iff .outside text).mpr
    ((closesAll_outerParens htext.reads).trans htyped)
  refine ⟨hraw.1, hraw.2, Bool.eq_false_iff.mpr fun hpair => ?_⟩
  -- An empty pair is one of the folded text, where a name stands in front of it.
  obtain ⟨front, gap, behind, rfl, hgap, hplain, hname⟩ := BracketScan.emptyPair_iff.mp hpair
  have hplaces := readsAlike_append htext.reads
  rw [readsAlike, hplain] at hplaces
  have houtside : Quotation.outside.past isQuote front = .outside := by
    simpa using (Bool.and_eq_true_iff.mp hplaces).1
  have hwide' : ¬ OpensWideFrom .outside front := by
    rintro ⟨before, rest, rfl, hbefore⟩
    exact hwide ⟨before, rest ++ '(' :: (gap ++ ')' :: behind), by simp, hbefore⟩
  have hfoldedName : (BracketScan.scanFrom {} .outside (foldGlyphs front)).previous.any
      BracketScan.endsName = true := by
    obtain ⟨gap', behind', hfold, hgap'⟩ := foldGlyphs_emptyPair behind houtside hgap
    rw [← Bool.not_eq_false]
    intro hnone
    have hplace := (past_foldGlyphsFrom hwide').trans houtside
    rw [BracketScan.emptyPair_iff.mpr ⟨_, gap', behind', hfold, hgap', hplace, hnone⟩] at hempty
    cases hempty
  rcases endsName_of_foldGlyphs houtside hplain hwide' hfoldedName with
    hends | ⟨before, gap', rfl, hgap', hbefore⟩
  · rw [hends] at hname
    cases hname
  · exact htext.calls ⟨before, gap', gap, behind, by simp, hgap', hgap, hbefore⟩

/-- Each pair is of one width. -/
example : bracketErrors ["（ａ＋１）*(ｂ)".toList] = [] := by decide +kernel

end BlockCode
