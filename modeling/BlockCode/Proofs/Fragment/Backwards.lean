/- # Operands that are found backwards

The operand of a negation is found from its end. A run of the characters of names and numbers is an
operand, and so are brackets with such a run in front of them. Which opening bracket belongs to the
last closing one is told by counting alone: strings are not regarded on the way back, and a run ends
at white space.

A marker behind a text negates the whole text exactly when the operand that is found this way goes
back to the start of the text.
-/

import Mathlib.Data.List.TakeWhile
import BlockCode.Proofs.Fragment.Negations

namespace BlockCode

/-! ## Brackets that match -/

/-- Strings aside, no end of the text opens more brackets than it closes, and the text as a whole
opens as many as it closes. -/
structure BracketsMatch (opening closing : Char) (text : List Char) : Prop where
  open_le : ∀ behind, behind <:+ text → behind.count opening ≤ behind.count closing
  open_eq : text.count opening = text.count closing

section

variable {opening closing : Char} {text text' : List Char}

instance : Decidable (BracketsMatch opening closing text) :=
  decidable_of_iff ((∀ behind ∈ text.tails, behind.count opening ≤ behind.count closing) ∧
      text.count opening = text.count closing)
    ⟨fun h => ⟨by simpa using h.1, h.2⟩, fun h => ⟨by simpa using h.open_le, h.open_eq⟩⟩

namespace BracketsMatch

theorem of_notMem (hopening : opening ∉ text) (hclosing : closing ∉ text) :
    BracketsMatch opening closing text where
  open_le behind hbehind := by
    rw [List.count_eq_zero_of_not_mem fun h => hopening (hbehind.mem h)]
    exact Nat.zero_le _
  open_eq := by
    rw [List.count_eq_zero_of_not_mem hopening, List.count_eq_zero_of_not_mem hclosing]

theorem append (h : BracketsMatch opening closing text)
    (h' : BracketsMatch opening closing text') : BracketsMatch opening closing (text ++ text') where
  open_le behind := by
    rintro ⟨front, hfront⟩
    rcases List.append_eq_append_iff.mp hfront with ⟨more, rfl, rfl⟩ | ⟨more, rfl, rfl⟩
    · have hle := h.open_le more (List.suffix_append front more)
      have heq := h'.open_eq
      rw [List.count_append, List.count_append]
      omega
    · exact h'.open_le behind (List.suffix_append more behind)
  open_eq := by rw [List.count_append, List.count_append, h.open_eq, h'.open_eq]

theorem enclosed (hne : opening ≠ closing) (h : BracketsMatch opening closing text) :
    BracketsMatch opening closing (opening :: (text ++ [closing])) := by
  have heq : (opening :: (text ++ [closing])).count opening =
      (opening :: (text ++ [closing])).count closing := by
    simp [hne, hne.symm, h.open_eq]
  refine ⟨fun behind hbehind => ?_, heq⟩
  rcases List.suffix_cons_iff.mp hbehind with rfl | hbehind
  · exact heq.le
  · rcases List.suffix_concat_iff.mp hbehind with rfl | ⟨more, rfl, hmore⟩
    · rfl
    · have hle := h.open_le more hmore
      rw [List.count_append, List.count_append, List.count_singleton_self,
        List.count_eq_zero_of_not_mem (a := opening) (l := [closing]) (by simpa using hne)]
      omega

end BracketsMatch

end

/-! ## Going back over brackets -/

theorem forall_prefix_cons {P : List Char → Prop} {c : Char} {text : List Char} :
    (∀ first, first <+: c :: text → P first) ↔ P [] ∧ ∀ first, first <+: text → P (c :: first) := by
  constructor
  · exact fun h => ⟨h [] List.nil_prefix, fun first hfirst =>
      h (c :: first) (List.cons_prefix_cons.mpr ⟨rfl, hfirst⟩)⟩
  · rintro ⟨hnil, hcons⟩ first hfirst
    cases first with
    | nil => exact hnil
    | cons d first =>
        obtain ⟨rfl, hmore⟩ := List.cons_prefix_cons.mp hfirst
        exact hcons first hmore

/-- It takes the whole text to close `depth` brackets, and one more opening bracket behind it. -/
structure Unwinds (opening closing : Char) (depth : Nat) (text : List Char) : Prop where
  open_lt : ∀ first, first <+: text → first.count opening < depth + first.count closing
  open_eq : text.count opening + 1 = depth + text.count closing

section

variable {opening closing c : Char} {depth n : Nat} {text : List Char}

theorem unwinds_nil : Unwinds opening closing depth [] ↔ depth = 1 := by
  constructor
  · exact fun h => by simpa using h.open_eq.symm
  · rintro rfl
    exact ⟨fun first hfirst => by simp [List.prefix_nil.mp hfirst], rfl⟩

/-- Each character leaves a text to go back over, with the brackets that are still to be closed. -/
theorem unwinds_cons {next : Nat}
    (h : next + [c].count opening = depth + [c].count closing) :
    Unwinds opening closing depth (c :: text) ↔
      0 < depth ∧ Unwinds opening closing next text := by
  have hcount (d : Char) (text : List Char) :
      (c :: text).count d = [c].count d + text.count d := by
    rw [← List.count_append, List.singleton_append]
  have hlt : (∀ first, first <+: c :: text →
      first.count opening < depth + first.count closing) ↔
      0 < depth ∧ ∀ first, first <+: text →
        first.count opening < next + first.count closing := by
    rw [forall_prefix_cons]
    refine and_congr (by simp) (forall₂_congr fun first _ => ?_)
    rw [hcount opening first, hcount closing first]
    omega
  have heq : (c :: text).count opening + 1 = depth + (c :: text).count closing ↔
      text.count opening + 1 = next + text.count closing := by
    rw [hcount opening text, hcount closing text]
    omega
  constructor
  · rintro ⟨hopen, htotal⟩
    obtain ⟨hdepth, hopen⟩ := hlt.mp hopen
    exact ⟨hdepth, hopen, heq.mp htotal⟩
  · rintro ⟨hdepth, hopen, htotal⟩
    exact ⟨hlt.mpr ⟨hdepth, hopen⟩, heq.mpr htotal⟩

/-- Going back ends at the opening bracket that the text before it unwinds to. -/
theorem bracketedLength?_eq_some_iff (hne : opening ≠ closing) (hdepth : 0 < depth) :
    bracketedLength? opening closing depth text = some n ↔
      ∃ front behind, text = front ++ opening :: behind ∧ n = front.length + 1 ∧
        Unwinds opening closing depth front := by
  have hclosing (depth : Nat) : depth + 1 + [closing].count opening =
      depth + [closing].count closing := by
    simp [hne.symm]
  have hopening {depth : Nat} (h : 1 < depth) : depth - 1 + [opening].count opening =
      depth + [opening].count closing := by
    simp [hne]
    omega
  have hother {c : Char} (hc : c ≠ closing) (hc' : c ≠ opening) (depth : Nat) :
      depth + [c].count opening = depth + [c].count closing := by
    simp [hc, hc']
  constructor
  · -- The character that is gone over is put in front of what the rest unwinds.
    have step {c : Char} {depth next : Nat} {rest : List Char} {found : Option Nat}
        (hdepth : 0 < depth) (hc : next + [c].count opening = depth + [c].count closing)
        (ih : ∀ {m}, found = some m → ∃ front behind, rest = front ++ opening :: behind ∧
          m = front.length + 1 ∧ Unwinds opening closing next front) {n : Nat}
        (h : found.map (· + 1) = some n) : ∃ front behind, c :: rest = front ++ opening :: behind ∧
          n = front.length + 1 ∧ Unwinds opening closing depth front := by
      obtain ⟨m, hm, rfl⟩ := Option.map_eq_some_iff.mp h
      obtain ⟨front, behind, rfl, rfl, hunwinds⟩ := ih hm
      exact ⟨c :: front, behind, rfl, rfl, (unwinds_cons hc).mpr ⟨hdepth, hunwinds⟩⟩
    intro h
    fun_induction bracketedLength? opening closing depth text generalizing n with
    | case1 => cases h
    | case2 depth c rest hc ih =>
        obtain rfl := eq_of_beq hc
        exact step hdepth (hclosing depth) (ih (Nat.succ_pos depth)) h
    | case3 depth c rest hc hc' hlast =>
        obtain rfl := eq_of_beq hc'
        cases h
        exact ⟨[], rest, rfl, rfl, unwinds_nil.mpr (by omega)⟩
    | case4 depth c rest hc hc' hlast ih =>
        obtain rfl := eq_of_beq hc'
        exact step hdepth (hopening (by omega)) (ih (by omega)) h
    | case5 depth c rest hc hc' ih =>
        rw [beq_iff_eq] at hc hc'
        exact step hdepth (hother hc hc' depth) (ih hdepth) h
  · rintro ⟨front, behind, rfl, rfl, hunwinds⟩
    induction front generalizing depth with
    | nil =>
        obtain rfl := unwinds_nil.mp hunwinds
        rw [List.nil_append, bracketedLength?, if_neg (by simpa using hne), if_pos (by simp),
          if_pos le_rfl]
        rfl
    | cons c front ih =>
        rw [List.cons_append, bracketedLength?]
        by_cases hc : c = closing
        · subst hc
          have hrest := ((unwinds_cons (hclosing depth)).mp hunwinds).2
          rw [if_pos (by simp), ih (Nat.succ_pos depth) hrest]
          rfl
        · by_cases hc' : c = opening
          · subst hc'
            -- The opening bracket is not the last one, or there would be nothing behind it.
            have hlt := hunwinds.open_lt [c] (List.cons_prefix_cons.mpr ⟨rfl, List.nil_prefix⟩)
            rw [List.count_singleton_self, List.count_eq_zero_of_not_mem (a := closing)
              (by simpa using Ne.symm hne), Nat.add_zero] at hlt
            have hrest := ((unwinds_cons (hopening hlt)).mp hunwinds).2
            rw [if_neg (by simpa using hc), if_pos (by simp), if_neg (by omega),
              ih (by omega) hrest]
            rfl
          · have hrest := ((unwinds_cons (hother hc hc' depth)).mp hunwinds).2
            rw [if_neg (by simpa using hc), if_neg (by simpa using hc'), ih hdepth hrest]
            rfl

/-- To close one bracket takes a text whose own brackets match. -/
theorem unwinds_one_iff :
    Unwinds opening closing 1 text.reverse ↔ BracketsMatch opening closing text := by
  constructor
  · rintro ⟨hopen, htotal⟩
    refine ⟨fun behind hbehind => ?_, ?_⟩
    · have hlt := hopen behind.reverse (List.reverse_prefix.mpr hbehind)
      rw [List.count_reverse, List.count_reverse] at hlt
      omega
    · rw [List.count_reverse, List.count_reverse] at htotal
      omega
  · rintro ⟨hopen, htotal⟩
    refine ⟨fun first hfirst => ?_, ?_⟩
    · have hle := hopen first.reverse (List.reverse_prefix.mp (by simpa using hfirst))
      rw [List.count_reverse, List.count_reverse] at hle
      omega
    · rw [List.count_reverse, List.count_reverse]
      omega

end

/-! ## Texts that are one operand -/

theorem length_takeWhile_eq_iff {p : Char → Bool} {text : List Char} :
    (text.takeWhile p).length = text.length ↔ ∀ c ∈ text, p c = true := by
  rw [← List.takeWhile_eq_self_iff]
  exact ⟨fun h => (List.takeWhile_prefix p).eq_of_length h, fun h => by rw [h]⟩

/-- The operand that ends with a closing bracket goes back to the start of the text when brackets
match in front of it, back to one that has nothing but a run of characters before it. -/
theorem bracketedOperand_iff {opening closing : Char} (hne : opening ≠ closing)
    {text : List Char} :
    ((bracketedLength? opening closing 0 (closing :: text.reverse)).map fun n =>
        n + (((closing :: text.reverse).drop n).takeWhile isOperandChar).length) =
      some (text.length + 1) ↔
    ∃ word inner, text = word ++ opening :: inner ∧ (∀ c ∈ word, isOperandChar c = true) ∧
      BracketsMatch opening closing inner := by
  have hfirst : bracketedLength? opening closing 0 (closing :: text.reverse) =
      (bracketedLength? opening closing 1 text.reverse).map (· + 1) := by
    rw [bracketedLength?, if_pos (by simp)]
  have hlength {front behind : List Char} (h : text.reverse = front ++ opening :: behind) :
      text.length = front.length + 1 + behind.length := by
    rw [← List.length_reverse, h, List.length_append, List.length_cons]
    omega
  have hdrop {front behind : List Char} (h : text.reverse = front ++ opening :: behind) :
      (closing :: text.reverse).drop (front.length + 1 + 1) = behind := by
    rw [List.drop_succ_cons, h, List.drop_append, List.drop_of_length_le (by omega),
      Nat.add_sub_cancel_left]
    rfl
  rw [hfirst, Option.map_map]
  constructor
  · intro h
    obtain ⟨n, hn, htotal⟩ := Option.map_eq_some_iff.mp h
    obtain ⟨front, behind, hsplit, rfl, hunwinds⟩ :=
      (bracketedLength?_eq_some_iff hne Nat.one_pos).mp hn
    rw [Function.comp_apply, hdrop hsplit, hlength hsplit] at htotal
    have hword := length_takeWhile_eq_iff.mp (show (behind.takeWhile isOperandChar).length =
      behind.length by omega)
    refine ⟨behind.reverse, front.reverse, ?_, fun c hc => hword c (List.mem_reverse.mp hc), ?_⟩
    · rw [← List.reverse_reverse text, hsplit]
      simp
    · rw [← unwinds_one_iff, List.reverse_reverse]
      exact hunwinds
  · rintro ⟨word, inner, htext, hword, hmatch⟩
    have hsplit : text.reverse = inner.reverse ++ opening :: word.reverse := by
      rw [htext]
      simp
    have hfound := (bracketedLength?_eq_some_iff hne Nat.one_pos).mpr
      ⟨_, _, hsplit, rfl, unwinds_one_iff.mpr hmatch⟩
    have hrun := length_takeWhile_eq_iff.mpr fun c hc => hword c (List.mem_reverse.mp hc)
    rw [hfound, Option.map_some, Function.comp_apply, hdrop hsplit, hrun, hlength hsplit]
    rw [Option.some.injEq]
    omega

/-- The brackets with which an operand may end. -/
def operandBrackets : List (Char × Char) :=
  [('(', ')'), ('[', ']')]

/-- The text as a whole is an operand as it is found backwards: a run of the characters of names and
numbers, or matching brackets behind one. -/
def BackwardOperand (text : List Char) : Prop :=
  (∀ c ∈ text, isOperandChar c = true) ∨
    ∃ brackets ∈ operandBrackets, ∃ word inner,
      text = word ++ brackets.1 :: (inner ++ [brackets.2]) ∧
        (∀ c ∈ word, isOperandChar c = true) ∧ BracketsMatch brackets.1 brackets.2 inner

/-- Brackets at the end of an operand are told by the closing one. -/
theorem backwardOperand_concat_iff {brackets : Char × Char} (hmem : brackets ∈ operandBrackets)
    {text : List Char} : BackwardOperand (text ++ [brackets.2]) ↔
      ∃ word inner, text = word ++ brackets.1 :: inner ∧ (∀ c ∈ word, isOperandChar c = true) ∧
        BracketsMatch brackets.1 brackets.2 inner := by
  have hclosing : ∀ brackets ∈ operandBrackets, isOperandChar brackets.2 = false ∧
      ∀ other ∈ operandBrackets, brackets.2 = other.2 → brackets = other := by
    decide
  constructor
  · rintro (hall | ⟨other, hother, word, inner, htext, hword, hmatch⟩)
    · have hlast := hall brackets.2 (by simp)
      rw [(hclosing brackets hmem).1] at hlast
      cases hlast
    · rw [← List.cons_append, ← List.append_assoc] at htext
      obtain ⟨rfl, hlast⟩ := List.append_inj' htext rfl
      obtain rfl := (hclosing brackets hmem).2 other hother (List.cons.inj hlast).1
      exact ⟨word, inner, rfl, hword, hmatch⟩
  · rintro ⟨word, inner, rfl, hword, hmatch⟩
    exact .inr ⟨brackets, hmem, word, inner, by simp, hword, hmatch⟩

theorem operandLength?_reverse_eq_iff {text : List Char} (htext : text ≠ []) :
    operandLength? text.reverse = some text.length ↔ BackwardOperand text := by
  obtain ⟨front, last, rfl⟩ := (List.eq_nil_or_concat' text).resolve_left htext
  rw [List.reverse_append, List.reverse_singleton, List.singleton_append, List.length_append,
    List.length_singleton, operandLength?]
  by_cases hparen : last = ')'
  · have hiff := @backwardOperand_concat_iff ('(', ')') (.head _) front
    rw [hparen, if_pos (beq_self_eq_true ')'), bracketedOperand_iff (by decide), hiff]
  · rw [if_neg (by simpa using hparen)]
    by_cases hbracket : last = ']'
    · have hiff := @backwardOperand_concat_iff ('[', ']') (.tail _ (.head _)) front
      rw [hbracket, if_pos (beq_self_eq_true ']'), bracketedOperand_iff (by decide), hiff]
    · rw [if_neg (by simpa using hbracket)]
      have hrun : BackwardOperand (front ++ [last]) ↔
          ∀ c ∈ front ++ [last], isOperandChar c = true := by
        refine or_iff_left ?_
        rintro ⟨brackets, hmem, word, inner, heq, -⟩
        rw [← List.cons_append, ← List.append_assoc] at heq
        obtain ⟨-, hlast⟩ := List.append_inj' heq rfl
        have hclosing : ∀ brackets ∈ operandBrackets, brackets.2 = ')' ∨ brackets.2 = ']' := by
          decide
        rcases hclosing brackets hmem with hclosing | hclosing
        · exact hparen ((List.cons.inj hlast).1.trans hclosing)
        · exact hbracket ((List.cons.inj hlast).1.trans hclosing)
      rw [hrun]
      by_cases hchar : isOperandChar last = true
      · have hlength : (front ++ [last]).length = (last :: front.reverse).length := by simp
        rw [if_pos hchar, Option.map_some, Option.some.injEq, List.drop_zero, Nat.zero_add,
          ← List.length_singleton (a := last), ← List.length_append, hlength,
          length_takeWhile_eq_iff]
        simp [or_imp, forall_and, and_comm]
      · rw [if_neg hchar]
        refine iff_of_false (by simp) fun hall => hchar (hall last (by simp))

/-! ## A marker behind a text -/

theorem splitAtMarkerFrom?_cons_eq_none_iff {place : Quotation} {c : Char} {text : List Char} :
    splitAtMarkerFrom? place (c :: text) = none ↔
      (place = .outside → afterWord? negationMarker (c :: text) = none) ∧
        splitAtMarkerFrom? (place.after c) text = none := by
  constructor
  · intro h
    have hfirst : place = .outside → afterWord? negationMarker (c :: text) = none := by
      rintro rfl
      rw [splitAtMarkerFrom?.eq_def] at h
      dsimp only at h
      cases hmarker : afterWord? negationMarker (c :: text) with
      | none => rfl
      | some behind =>
          rw [hmarker] at h
          cases h
    rw [splitAtMarkerFrom?_cons hfirst, Option.map_eq_none_iff] at h
    exact ⟨hfirst, h⟩
  · rintro ⟨hfirst, hrest⟩
    rw [splitAtMarkerFrom?_cons hfirst, hrest, Option.map_none]

/-- No marker goes on where another one starts. -/
theorem afterWord?_append_marker {text : List Char} (htext : text ≠ [])
    (h : afterWord? negationMarker text = none) :
    afterWord? negationMarker (text ++ negationMarker) = none := by
  have hparts : ∀ part ∈ negationMarker.inits, part ≠ [] →
      afterWord? negationMarker part = none →
        afterWord? negationMarker (part ++ negationMarker) = none := by
    decide
  rw [Option.eq_none_iff_forall_not_mem]
  intro behind hbehind
  have hprefix : negationMarker <+: text ++ negationMarker :=
    ⟨behind, (afterWord?_eq_some_iff.mp hbehind).symm⟩
  rcases List.prefix_or_prefix_of_prefix hprefix (List.prefix_append _ _) with hwhole | hpart
  · obtain ⟨rest, rfl⟩ := hwhole
    rw [afterWord?_eq_some_iff.mpr rfl] at h
    cases h
  · rw [hparts text ((List.mem_inits _ _).mpr hpart) htext h] at hbehind
    cases hbehind

/-- A marker behind a text without markers is the first one of the whole. -/
theorem splitAtMarkerFrom?_append_marker {place : Quotation} {text : List Char}
    (h : splitAtMarkerFrom? place text = none)
    (houtside : place.past isDoubleQuote text = .outside) :
    splitAtMarkerFrom? place (text ++ negationMarker) = some (text, []) := by
  induction text generalizing place with
  | nil =>
      obtain rfl : place = .outside := houtside
      rfl
  | cons c text ih =>
      obtain ⟨hfirst, hrest⟩ := splitAtMarkerFrom?_cons_eq_none_iff.mp h
      rw [Quotation.past_cons, Quotation.next_isDoubleQuote] at houtside
      rw [List.cons_append, splitAtMarkerFrom?_cons, ih hrest houtside]
      · rfl
      · exact fun hplace => afterWord?_append_marker (List.cons_ne_nil c text) (hfirst hplace)

theorem bracketedLength?_le {opening closing : Char} {depth n : Nat} {text : List Char}
    (h : bracketedLength? opening closing depth text = some n) : n ≤ text.length := by
  fun_induction bracketedLength? opening closing depth text generalizing n with
  | case1 => cases h
  | case3 depth c rest hclosing hopening hdepth =>
      cases h
      exact Nat.succ_pos rest.length
  | case2 | case4 | case5 =>
      rename_i ih
      obtain ⟨m, hm, rfl⟩ := Option.map_eq_some_iff.mp h
      exact Nat.succ_le_succ (ih hm)

theorem operandLength?_le {reversed : List Char} {n : Nat}
    (h : operandLength? reversed = some n) : n ≤ reversed.length := by
  cases reversed with
  | nil => cases h
  | cons last rest =>
      obtain ⟨m, hbracketed, rfl⟩ := Option.map_eq_some_iff.mp h
      have hm : m ≤ (last :: rest).length := by
        split at hbracketed
        · exact bracketedLength?_le hbracketed
        · split at hbracketed
          · exact bracketedLength?_le hbracketed
          · split at hbracketed <;> cases hbracketed
            exact Nat.zero_le _
      have hrun := (List.takeWhile_prefix isOperandChar (l := (last :: rest).drop m)).length_le
      rw [List.length_drop] at hrun
      omega

/-- Each negation that is moved makes the text shorter. -/
theorem length_rewriteNegation {text rewritten : List Char}
    (h : rewriteNegation text = .ok rewritten) :
    rewritten.length ≤ text.length ∧ (rewritten.length = text.length → rewritten = text) := by
  fun_induction rewriteNegation text with
  | case1 =>
      cases h
      exact ⟨le_rfl, fun _ => rfl⟩
  | case2 => cases h
  | case3 text front behind hsplit negated hnegated ih =>
      have hle := (ih h).1
      have hlength := length_splitAtMarkerFrom? hsplit
      have hnegated := length_negateLast? hnegated
      have hmarker : negationMarker.length = 3 := rfl
      rw [List.length_append] at hle
      omega

theorem rewriteNegation_of_split {text front behind : List Char}
    (h : splitAtMarkerFrom? .outside text = some (front, behind)) :
    rewriteNegation text = match negateLast? front with
      | none => .error .danglingNegation
      | some negated => rewriteNegation (negated ++ behind) := by
  rw [rewriteNegation]
  split
  · next hsplit =>
    rw [h] at hsplit
    cases hsplit
  · next front' behind' hsplit =>
    rw [h] at hsplit
    cases hsplit
    split <;> simp_all

/-- A marker behind a text negates the whole text exactly when the text is one operand as operands
are found backwards. -/
theorem rewriteNegation_append_marker_iff {text : List Char} (htext : text ≠ [])
    (hfirst : ∀ c ∈ text.head?, c ≠ '!') (hlast : ∀ c ∈ text.getLast?, isBlank c = false)
    (hmarker : splitAtMarkerFrom? .outside text = none)
    (houtside : Quotation.outside.past isDoubleQuote text = .outside) :
    rewriteNegation (text ++ negationMarker) = .ok ('!' :: text) ↔ BackwardOperand text := by
  have hreversed : text.reverse.dropWhile isBlank = text.reverse := by
    rw [← List.head?_reverse] at hlast
    cases hcases : text.reverse with
    | nil => rfl
    | cons last rest =>
        rw [hcases] at hlast
        exact List.dropWhile_cons_of_neg (by simp [hlast last rfl])
  rw [rewriteNegation_of_split (splitAtMarkerFrom?_append_marker hmarker houtside), negateLast?,
    hreversed, ← operandLength?_reverse_eq_iff htext]
  cases hlength : operandLength? text.reverse with
  | none => exact iff_of_false (by simp) (by simp)
  | some n =>
      rw [Option.map_some, Option.some.injEq]
      dsimp only
      rw [List.append_nil]
      constructor
      · intro h
        have hn := operandLength?_le hlength
        rw [List.length_reverse] at hn
        have hwhole := (length_rewriteNegation h).2 (by simp; omega)
        -- The operator is the first character, so nothing stands in front of the operand.
        cases hbefore : (text.reverse.drop n).reverse with
        | nil =>
            rw [List.reverse_eq_nil_iff, List.drop_eq_nil_iff, List.length_reverse] at hbefore
            exact le_antisymm hn hbefore
        | cons c before =>
            have htext : text = (text.reverse.drop n).reverse ++ (text.reverse.take n).reverse := by
              rw [← List.reverse_append, List.take_append_drop, List.reverse_reverse]
            rw [hbefore, List.cons_append] at hwhole htext
            exact absurd (List.cons.inj hwhole).1.symm (hfirst c (by rw [htext]; rfl))
      · rintro rfl
        rw [← List.length_reverse, List.drop_length, List.take_length, List.reverse_reverse]
        refine rewriteNegation_eq_self (splitAtMarkerFrom?_cons_eq_none_iff.mpr ⟨fun _ => rfl, ?_⟩)
        exact hmarker

end BlockCode
