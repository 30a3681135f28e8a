/- # What moving a negation leaves alone

A negation moves from behind its operand to the front of it. That changes little: the marker is a
word outside of strings, the operator stands in front of a character that neither is a quote nor
protects one, and only white space goes away besides. So the places inside and outside of strings
stay what they were, and so do the parentheses. The one thing that the marker hides from the bracket
check is that a pair of parentheses stands behind something that is no name.
-/

import BlockCode.Proofs.Fragment.Balance

namespace BlockCode

/-! ## The operand of a negation -/

/-- Whether the operand of a negation may start with the character. -/
def startsOperand (c : Char) : Bool :=
  c == '(' || c == '[' || isOperandChar c

theorem getLast?_take_bracketedLength? {opening closing : Char} {depth n : Nat} {text : List Char}
    (h : bracketedLength? opening closing depth text = some n) :
    (text.take n).getLast? = some opening := by
  have more {c : Char} {rest : List Char} {m : Nat} {r : Option Nat}
      (ih : ∀ {m}, r = some m → (rest.take m).getLast? = some opening)
      (hr : r.map (· + 1) = some m) : ((c :: rest).take m).getLast? = some opening := by
    obtain ⟨m', hm', rfl⟩ := Option.map_eq_some_iff.mp hr
    rw [List.take_succ_cons, List.getLast?_cons, ih hm', Option.getD_some]
  fun_induction bracketedLength? opening closing depth text generalizing n with
  | case1 => cases h
  | case2 depth c rest hclosing ih => exact more ih h
  | case3 depth c rest hclosing hopening hdepth =>
      cases h
      rw [List.take_succ_cons, List.take_zero, eq_of_beq hopening]
      rfl
  | case4 depth c rest hclosing hopening hdepth ih => exact more ih h
  | case5 depth c rest hclosing hopening ih => exact more ih h

/-- The operand that is found going backwards is not empty, and it may start as it does. -/
theorem exists_getLast?_of_operandLength? {reversed : List Char} {n : Nat}
    (h : operandLength? reversed = some n) :
    ∃ first, (reversed.take n).getLast? = some first ∧ startsOperand first = true := by
  cases reversed with
  | nil => cases h
  | cons last rest =>
      obtain ⟨m, hbracketed, rfl⟩ := Option.map_eq_some_iff.mp h
      have bracketed {opening closing : Char} (hstarts : startsOperand opening = true)
          (hm : bracketedLength? opening closing 0 (last :: rest) = some m) :
          ∃ first, ((last :: rest).take m).getLast? = some first ∧ startsOperand first = true :=
        ⟨opening, getLast?_take_bracketedLength? hm, hstarts⟩
      obtain ⟨run, hrun⟩ : ∃ run, ((last :: rest).drop m).takeWhile isOperandChar = run := ⟨_, rfl⟩
      have htake : (last :: rest).take (m + run.length) = (last :: rest).take m ++ run := by
        rw [List.take_add, ← hrun, ← List.prefix_iff_eq_take.mp (List.takeWhile_prefix _)]
      rw [hrun, htake, List.getLast?_append]
      cases hlast : run.getLast? with
      | some c =>
          have hmem : c ∈ List.takeWhile isOperandChar ((last :: rest).drop m) :=
            hrun ▸ List.mem_of_getLast? hlast
          have hchar : isOperandChar c = true := List.all_eq_true.mp List.all_takeWhile c hmem
          exact ⟨c, rfl, by simp [startsOperand, hchar]⟩
      | none =>
          -- Without a run of characters in front of it the operand is what stands in brackets.
          rw [Option.none_or]
          split at hbracketed
          · exact bracketed rfl hbracketed
          · split at hbracketed
            · exact bracketed rfl hbracketed
            · split at hbracketed
              · next hchar =>
                cases hbracketed
                rw [← hrun, List.drop_zero, List.takeWhile_cons_of_pos hchar] at hlast
                simp at hlast
              · cases hbracketed

/-- Whether the operand of a negation may end with the character. -/
def endsOperand (c : Char) : Bool :=
  c == ')' || c == ']' || isOperandChar c

theorem endsOperand_of_operandLength? {last : Char} {rest : List Char} {n : Nat}
    (h : operandLength? (last :: rest) = some n) : endsOperand last = true := by
  obtain ⟨m, hbracketed, -⟩ := Option.map_eq_some_iff.mp h
  rw [endsOperand, Bool.or_eq_true, Bool.or_eq_true]
  split at hbracketed
  · next hround => exact .inl (.inl hround)
  · split at hbracketed
    · next hsquare => exact .inl (.inr hsquare)
    · split at hbracketed
      · next hchar => exact .inr hchar
      · cases hbracketed

/-- A negation moves from behind the operand to the front of it. -/
structure NegationMoves (text moved before operand gap behind : List Char) : Prop where
  text_eq : text = before ++ (operand ++ (gap ++ (negationMarker ++ behind)))
  moved_eq : moved = before ++ '!' :: (operand ++ behind)
  outside : Quotation.outside.past isDoubleQuote (before ++ (operand ++ gap)) = .outside
  gap_blank : ∀ c ∈ gap, isBlank c = true
  starts : ∃ first rest, operand = first :: rest ∧ startsOperand first = true
  ends : ∃ front last, operand = front ++ [last] ∧ endsOperand last = true

/-- A marker is looked for behind a character where none starts with it. -/
theorem splitAtMarkerFrom?_cons {place : Quotation} {c : Char} {text : List Char}
    (h : place = .outside → afterWord? negationMarker (c :: text) = none) :
    splitAtMarkerFrom? place (c :: text) = (splitAtMarkerFrom? (place.after c) text).map
      fun (front, behind) => (c :: front, behind) := by
  rw [splitAtMarkerFrom?]
  rintro behind hplace hmarker
  rw [h hplace] at hmarker
  cases hmarker

/-- The marker is found outside of strings. -/
theorem past_of_splitAtMarkerFrom? {place : Quotation} {text front behind : List Char}
    (h : splitAtMarkerFrom? place text = some (front, behind)) :
    place.past isDoubleQuote front = .outside := by
  induction text generalizing place front behind with
  | nil => cases h
  | cons c rest ih =>
      simp only [splitAtMarkerFrom?] at h
      split at h
      · cases h
        rfl
      · obtain ⟨⟨front', behind'⟩, hsplit, heq⟩ := Option.map_eq_some_iff.mp h
        cases heq
        rw [Quotation.past_cons, Quotation.next_isDoubleQuote, ih hsplit]

/-- Each step of rewriting moves a negation. -/
theorem exists_negationMoves {text front behind negated : List Char}
    (hsplit : splitAtMarkerFrom? .outside text = some (front, behind))
    (hnegated : negateLast? front = some negated) :
    ∃ before operand gap, NegationMoves text (negated ++ behind) before operand gap behind := by
  obtain ⟨n, hlength, rfl⟩ := Option.map_eq_some_iff.mp hnegated
  obtain ⟨first, hfirst, hstarts⟩ := exists_getLast?_of_operandLength? hlength
  have hfront : front = ((front.reverse.dropWhile isBlank).drop n).reverse ++
      (((front.reverse.dropWhile isBlank).take n).reverse ++
        (front.reverse.takeWhile isBlank).reverse) := by
    rw [← List.append_assoc, ← List.reverse_append, List.take_append_drop, ← List.reverse_append,
      List.takeWhile_append_dropWhile, List.reverse_reverse]
  refine ⟨_, _, _, ?_, ?_, hfront ▸ past_of_splitAtMarkerFrom? hsplit, ?_, ?_, ?_⟩
  · rw [eq_append_of_splitAtMarkerFrom? hsplit]
    nth_rewrite 1 [hfront]
    simp only [List.append_assoc]
  · rw [List.append_assoc, List.cons_append]
  · intro c hc
    exact List.all_eq_true.mp List.all_takeWhile c (List.mem_reverse.mp hc)
  · rw [← List.head?_reverse] at hfirst
    obtain ⟨rest, hrest⟩ := List.head?_eq_some_iff.mp hfirst
    exact ⟨first, rest, hrest, hstarts⟩
  · -- Reversed, the operand starts with the character that decided how it was looked for.
    cases hreversed : front.reverse.dropWhile isBlank with
    | nil =>
        rw [hreversed] at hlength
        cases hlength
    | cons last rest =>
        rw [hreversed] at hlength hfirst
        cases n with
        | zero => cases hfirst
        | succ n =>
            rw [List.take_succ_cons, List.reverse_cons]
            exact ⟨_, last, rfl, endsOperand_of_operandLength? hlength⟩

/-- What moving a negation hands back from the moved text to the text, rewriting hands back from the
rewritten text. -/
theorem of_rewriteNegation {P : List Char → Prop}
    (hmoves : ∀ {text moved before operand gap behind},
      NegationMoves text moved before operand gap behind → P moved → P text)
    {text rewritten : List Char} (h : rewriteNegation text = .ok rewritten) (hP : P rewritten) :
    P text := by
  fun_induction rewriteNegation text with
  | case1 =>
      cases h
      exact hP
  | case2 => cases h
  | case3 text front behind hsplit negated hnegated ih =>
      obtain ⟨before, operand, gap, hmove⟩ := exists_negationMoves hsplit hnegated
      exact hmoves hmove (ih h)

/-- What moving a negation keeps, rewriting keeps. -/
theorem rewriteNegation_preserves {P : List Char → Prop}
    (hmoves : ∀ {text moved before operand gap behind},
      NegationMoves text moved before operand gap behind → P text → P moved)
    {text rewritten : List Char} (h : rewriteNegation text = .ok rewritten) (hP : P text) :
    P rewritten := by
  fun_induction rewriteNegation text with
  | case1 =>
      cases h
      exact hP
  | case2 => cases h
  | case3 text front behind hsplit negated hnegated ih =>
      obtain ⟨before, operand, gap, hmove⟩ := exists_negationMoves hsplit hnegated
      exact ih h (hmoves hmove hP)

/-- Rewriting ends where no marker is left. -/
theorem splitAtMarkerFrom?_of_rewriteNegation {text rewritten : List Char}
    (h : rewriteNegation text = .ok rewritten) : splitAtMarkerFrom? .outside rewritten = none := by
  fun_induction rewriteNegation text with
  | case1 text hsplit =>
      cases h
      exact hsplit
  | case2 => cases h
  | case3 _ _ _ _ _ _ ih => exact ih h

theorem rewriteNegation_eq_self {text : List Char} (h : splitAtMarkerFrom? .outside text = none) :
    rewriteNegation text = .ok text := by
  rw [rewriteNegation]
  split
  · rfl
  · next hsplit =>
    rw [h] at hsplit
    cases hsplit

/-! ## Brackets -/

/-- An operand starts with no blank and no quote, and with nothing that protects a quote. -/
theorem isBlank_of_startsOperand {c : Char} (h : startsOperand c = true) :
    isBlank c = false ∧ isDoubleQuote c = false ∧ c ≠ '\\' ∧ c ≠ '\uff02' := by
  have hnone : (∀ n ∈ blankClass.codes, startsOperand (Char.ofNat n) = false) ∧
      startsOperand '\uff02' = false := by
    decide +kernel
  have hblank : isBlank c = false := by
    rw [← Bool.not_eq_true]
    intro hblank
    rw [forall_isBlank (P := fun c => startsOperand c = false) hnone.1 hblank] at h
    cases h
  refine ⟨hblank, ?_, ?_, ?_⟩
  · rw [← Bool.not_eq_true]
    intro hquote
    rw [eq_of_beq hquote] at h
    exact absurd h (by decide)
  · rintro rfl
    exact absurd h (by decide)
  · rintro rfl
    rw [hnone.2] at h
    cases h

/-- Behind the operator, the operand starts at the place in front of the operator, or leads to the
same place. -/
theorem after_after_operator (place : Quotation) {c : Char} (hc : startsOperand c = true) :
    (place.after '!').after c = place.after c := by
  obtain ⟨-, hquote, hslash, -⟩ := isBlank_of_startsOperand hc
  cases place with
  | outside | inside => rfl
  | escaped =>
      have hnext : Quotation.inside.next isDoubleQuote c = .inside :=
        Quotation.next_eq_self (by decide) hquote hslash
      rw [Quotation.next_isDoubleQuote] at hnext
      exact hnext

namespace BracketScan

variable {scan harsher : BracketScan} {c : Char} {n : Nat}

/-- Behind the operator, the operand is gone over no milder than without it. -/
theorem Milder.operator (place : Quotation) (hc : startsOperand c = true) :
    Milder 0 (scan.step place c) ((scan.step place '!').step (place.after '!') c) := by
  obtain ⟨hblank, hquote, -, -⟩ := isBlank_of_startsOperand hc
  cases place with
  | outside =>
      have hoperator : scan.step .outside '!' = scan.passed '!' := rfl
      have hafter : Quotation.outside.after '!' = .outside := rfl
      rw [hoperator, hafter, BracketScan.step, BracketScan.step, hblank,
        if_neg Bool.false_ne_true, if_neg Bool.false_ne_true, BracketScan.see, BracketScan.see]
      split
      · exact ⟨rfl, rfl, id, id, id, fun _ => rfl⟩
      · split
        · next hright =>
          rw [eq_of_beq hright] at hc
          exact absurd hc (by decide)
        · exact .refl _
  | inside =>
      have hdouble : ¬(c == '"') = true := by simpa [isDoubleQuote] using hquote
      have hoperator : scan.step .inside '!' = scan := rfl
      have hafter : Quotation.inside.after '!' = .inside := rfl
      rw [hoperator, hafter]
      exact .refl _
  | escaped =>
      have hdouble : ¬(c == '"') = true := by simpa [isDoubleQuote] using hquote
      have hoperator : scan.step .escaped '!' = scan := rfl
      have hafter : Quotation.escaped.after '!' = .inside := rfl
      rw [hoperator, hafter, BracketScan.step, BracketScan.step, if_neg hdouble]
      exact .refl _

/-- The marker is gone over no harsher than nothing. -/
theorem Milder.marker (h : Milder n scan harsher) : Milder n (scan.passed 'い') harsher := by
  have hends : endsName 'い' = true := by decide +kernel
  exact ⟨h.opened, h.closed, h.outOfOrder, h.emptyPair,
    fun _ => by rw [passed, Option.any_some, hends],
    fun hopen => nomatch hopen⟩

end BracketScan

/-- Texts are closed alike that go on alike from the place to which their common front leads. -/
theorem closesFrom_append_congr {place : Quotation} {front text text' : List Char}
    (h : closesFrom (place.past isDoubleQuote front) text =
      closesFrom (place.past isDoubleQuote front) text') :
    closesFrom place (front ++ text) = closesFrom place (front ++ text') := by
  induction front generalizing place with
  | nil => exact h
  | cons c front ih =>
      rw [Quotation.past_cons, Quotation.next_isDoubleQuote] at h
      rw [List.cons_append, List.cons_append, closesFrom, closesFrom, ih h]

namespace NegationMoves

variable {text moved before operand gap behind : List Char}
  (h : NegationMoves text moved before operand gap behind)

include h

/-- The operand ends outside of strings. -/
theorem past_operand : Quotation.outside.past isDoubleQuote (before ++ operand) = .outside := by
  have hquotes : ∀ c ∈ gap, isDoubleQuote c = false := fun c hc =>
    beq_eq_false_iff_ne.mpr (ne_of_isBlank (h.gap_blank c hc) (by decide))
  have houtside := h.outside
  rw [← List.append_assoc, Quotation.past_append] at houtside
  exact Quotation.eq_outside_of_past hquotes houtside

/-- The operator changes no place. -/
theorem past_operator (place : Quotation) :
    (place.after '!').past isDoubleQuote operand = place.past isDoubleQuote operand := by
  obtain ⟨first, rest, rfl, hstarts⟩ := h.starts
  rw [Quotation.past_cons, Quotation.past_cons, Quotation.next_isDoubleQuote,
    Quotation.next_isDoubleQuote, after_after_operator place hstarts]

/-- The brackets of the moved text are no milder than those of the text. -/
theorem milder : BracketScan.Milder 0 (BracketScan.scanFrom {} .outside text)
    (BracketScan.scanFrom {} .outside moved) := by
  have hmarker : BracketScan.Passes .outside negationMarker 'い' :=
    @BracketScan.passes_word 'い' ['で', 'な'] (by decide)
  have hplace := h.past_operand
  have hoperator := h.past_operator (Quotation.outside.past isDoubleQuote before)
  rw [Quotation.past_append] at hplace
  rw [h.text_eq, h.moved_eq, BracketScan.scanFrom_append, BracketScan.scanFrom_append,
    BracketScan.scanFrom_append, hplace, BracketScan.scanFrom_append,
    BracketScan.scanFrom_blank h.gap_blank, BracketScan.past_blank h.gap_blank,
    BracketScan.scanFrom_append, hmarker.scanFrom_eq, hmarker.past_eq, BracketScan.scanFrom_cons,
    BracketScan.scanFrom_append, hoperator, hplace]
  refine BracketScan.Milder.scanFrom (BracketScan.Milder.marker ?_) .outside behind
  obtain ⟨first, rest, rfl, hstarts⟩ := h.starts
  rw [BracketScan.scanFrom_cons, BracketScan.scanFrom_cons, after_after_operator _ hstarts]
  exact (BracketScan.Milder.operator _ hstarts).scanFrom _ rest

/-- The text is closed just as the moved text is. -/
theorem closesFrom_eq : closesFrom .outside text = closesFrom .outside moved := by
  have hmarker : ∀ c ∈ gap ++ negationMarker, c ≠ '"' ∧ c ≠ '\uff02' := by
    refine List.forall_mem_append.mpr ⟨fun c hc => ?_, by decide⟩
    have hblank := h.gap_blank c hc
    exact ⟨ne_of_isBlank hblank (by decide), ne_of_isBlank hblank (by decide)⟩
  have hplace := h.past_operand
  rw [Quotation.past_append] at hplace
  rw [h.text_eq, h.moved_eq]
  refine closesFrom_append_congr ?_
  generalize Quotation.outside.past isDoubleQuote before = place at hplace
  calc closesFrom place (operand ++ (gap ++ (negationMarker ++ behind)))
      = closesFrom place (operand ++ behind) := closesFrom_append_congr <| by
        rw [hplace, ← List.append_assoc, closesFrom_append hmarker]
    _ = closesFrom place ('!' :: (operand ++ behind)) := by
        obtain ⟨first, rest, rfl, hstarts⟩ := h.starts
        have hwide : (first == '\uff02') = false :=
          beq_eq_false_iff_ne.mpr (isBlank_of_startsOperand hstarts).2.2.2
        rw [List.cons_append, closesFrom, closesFrom, closesFrom, after_after_operator _ hstarts,
          hwide]
        simp

end NegationMoves

/-- A text whose negations move to a text with fine brackets has fine brackets. -/
theorem bracketErrors_of_rewriteNegation {text rewritten : List Char}
    (h : rewriteNegation text = .ok rewritten) (hbrackets : bracketErrors [rewritten] = []) :
    bracketErrors [text] = [] :=
  of_rewriteNegation (P := fun text => bracketErrors [text] = [])
    (fun hmoves hmoved => hmoves.milder.errors_eq_nil hmoved) h hbrackets

theorem closesFrom_of_rewriteNegation {text rewritten : List Char}
    (h : rewriteNegation text = .ok rewritten) (hclosed : closesFrom .outside rewritten = true) :
    closesFrom .outside text = true :=
  of_rewriteNegation (P := fun text => closesFrom .outside text = true)
    (fun hmoves hmoved => hmoves.closesFrom_eq.trans hmoved) h hclosed

end BlockCode
