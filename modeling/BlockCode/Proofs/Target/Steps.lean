/- # Steps that overflow

A loop that counts down needs its step with the other sign. The printed step is computed with
where it reads as an integer, and the other sign is missing for one integer only, the smallest.
Here it is shown which expressions print as that integer: a name, a call or an operation never
prints as a sign with digits, so it is the negation of a number with the right digits.
-/

import Mathlib.Algebra.Group.Nat.Defs
import BlockCode.Proofs.Expr.Lexemes
import BlockCode.Proofs.Names.CodePoints
import BlockCode.Target.ExprPrinter
import BlockCode.Target.Step

namespace BlockCode

/-- The literal of the smallest integer: a number one above the largest integer, with a minus sign
in front. -/
def Expr.IsLeastLiteral (e : Expr) : Prop :=
  ∃ span span' text, e = .unary span .negate (.number span' text) ∧
    text.toList.all isAsciiDigit = true ∧ digitsValue text.toList = 2 ^ 63

/-- The text has a character that no integer is written with, so that it reads as none. -/
def HasForeign (text : String) : Prop :=
  ∃ c ∈ text.toList, isAsciiDigit c = false ∧ c ≠ '-'

theorem any_eq_true_iff_hasForeign {text : String} :
    text.toList.any (fun c => !isAsciiDigit c && c != '-') = true ↔ HasForeign text := by
  rw [HasForeign, List.any_eq_true]
  simp

instance (text : String) : Decidable (HasForeign text) :=
  decidable_of_iff _ any_eq_true_iff_hasForeign

theorem hasForeign_append {text text' : String} :
    HasForeign (text ++ text') ↔ HasForeign text ∨ HasForeign text' := by
  simp only [HasForeign, String.toList_append, List.mem_append]
  constructor
  · rintro ⟨c, hmem | hmem, hc⟩
    · exact .inl ⟨c, hmem, hc⟩
    · exact .inr ⟨c, hmem, hc⟩
  · rintro (⟨c, hmem, hc⟩ | ⟨c, hmem, hc⟩)
    · exact ⟨c, .inl hmem, hc⟩
    · exact ⟨c, .inr hmem, hc⟩

theorem HasForeign.intercalate_cons {separator text : String} {texts : List String}
    (h : HasForeign text) : HasForeign (separator.intercalate (text :: texts)) := by
  cases texts with
  | nil =>
      rw [String.intercalate_singleton]
      exact h
  | cons next texts =>
      rw [String.intercalate_cons_cons, hasForeign_append, hasForeign_append]
      exact .inl (.inl h)

/-- A text that starts with such a character has one. -/
theorem hasForeign_of_head? {text : String} {p : Char → Bool}
    (hp : ∀ c, p c = true → isAsciiDigit c = false ∧ c ≠ '-')
    (h : text.toList.head?.any p = true) : HasForeign text := by
  cases hchars : text.toList with
  | nil =>
      rw [hchars] at h
      cases h
  | cons c rest =>
      rw [hchars] at h
      exact ⟨c, by rw [hchars]; exact .head _, hp c h⟩

theorem isAsciiNamePart_of_isAsciiDigit {c : Char} (h : isAsciiDigit c = true) :
    isAsciiNamePart c = true := by
  rw [isAsciiNamePart, h, Bool.or_true]
  rfl

/-- A character that starts a name is no part of an integer. -/
theorem not_digit_of_isNameStart {c : Char} (h : isNameStart c = true) :
    isAsciiDigit c = false ∧ c ≠ '-' := by
  constructor
  · rw [← Bool.not_eq_true]
    intro hdigit
    have hstart : isAsciiDigit c = true → isNameStart c = false :=
      forall_isAsciiNamePart (P := fun c => isAsciiDigit c = true → isNameStart c = false)
        (by decide) (isAsciiNamePart_of_isAsciiDigit hdigit)
    rw [hstart hdigit] at h
    cases h
  · rintro rfl
    revert h
    decide

theorem not_digit_of_isAsciiLetter {c : Char} (h : isAsciiLetter c = true) :
    isAsciiDigit c = false ∧ c ≠ '-' :=
  not_digit_of_isNameStart (isNameStart_of_isAsciiLetter h)

/-- A name prints as no integer, whatever its segments are replaced by. -/
theorem Spellings.Lettered.hasForeign_rename {spellings : Spellings} (h : spellings.Lettered)
    {word : String} (hword : word.toList.head?.any isNameStart = true) :
    HasForeign (spellings.rename word) := by
  obtain ⟨segment, segments, hsegments, hsegment⟩ :
      ∃ segment segments, nameSegments word = segment :: segments ∧ HasForeign segment := by
    rw [nameSegments, stringPiecesAt]
    cases hchars : word.toList with
    | nil =>
        rw [hchars] at hword
        cases hword
    | cons c rest =>
        rw [hchars] at hword
        have hc := not_digit_of_isNameStart hword
        have hdot : ¬ (c == '.') = true := by
          intro heq
          have hstart : isNameStart c = true := hword
          rw [eq_of_beq heq] at hstart
          exact absurd hstart (by decide)
        rw [piecesAt, if_neg hdot]
        cases piecesAt '.' rest with
        | nil => exact ⟨_, _, rfl, c, by simp, hc⟩
        | cons piece pieces => exact ⟨_, _, rfl, c, by simp, hc⟩
  rw [rename, hsegments, List.map_cons]
  apply HasForeign.intercalate_cons
  cases hspelling : spellings.spelling? segment with
  | none => exact hsegment
  | some spelling =>
      exact hasForeign_of_head? (fun _ => not_digit_of_isAsciiLetter) (h.spelling? hspelling)

/-- A text of digits alone has no other character. -/
theorem not_hasForeign_of_digits {text : String} {digits : List Char} (h : text.toList = digits)
    (hdigits : digits.all isAsciiDigit = true) : ¬ HasForeign text := by
  rintro ⟨c, hmem, hc, _⟩
  rw [h] at hmem
  rw [List.all_eq_true.mp hdigits c hmem] at hc
  cases hc

/-- Nor has one of a sign and digits. -/
theorem not_hasForeign_of_signed {text : String} {digits : List Char}
    (h : text.toList = '-' :: digits) (hdigits : digits.all isAsciiDigit = true) :
    ¬ HasForeign text := by
  rintro ⟨c, hmem, hc, hsign⟩
  rw [h, List.mem_cons] at hmem
  rcases hmem with rfl | hmem
  · exact hsign rfl
  · rw [List.all_eq_true.mp hdigits c hmem] at hc
    cases hc

theorem readDigits?_eq_some {digits : List Char} {n : Nat} (h : readDigits? digits = some n) :
    digits.all isAsciiDigit = true ∧ digitsValue digits = n := by
  rw [readDigits?] at h
  split at h
  · cases h
  · rename_i hdigits
    cases h
    simp only [Bool.or_eq_true, not_or, Bool.not_eq_true, Bool.not_eq_false'] at hdigits
    exact ⟨hdigits.2, rfl⟩

/-- Only a sign with digits reads as the smallest integer. -/
theorem readInt64?_eq_minInt64 {text : String} (h : readInt64? text = some minInt64) :
    ∃ digits, text.toList = '-' :: digits ∧ digits.all isAsciiDigit = true ∧
      digitsValue digits = 2 ^ 63 := by
  have unsigned {digits : List Char} (hread : (readDigits? digits).map Int.ofNat =
      some minInt64) : False := by
    obtain ⟨n, _, hn⟩ := Option.map_eq_some_iff.mp hread
    have hpos : (0 : Int) ≤ Int.ofNat n := Int.natCast_nonneg n
    rw [hn] at hpos
    exact absurd hpos (by decide)
  rw [readInt64?] at h
  obtain ⟨hread, _⟩ := Option.filter_eq_some_iff.mp h
  split at hread
  · exact (unsigned hread).elim
  · rename_i digits hchars
    obtain ⟨n, hn, heq⟩ := Option.map_eq_some_iff.mp hread
    obtain ⟨hdigits, hvalue⟩ := readDigits?_eq_some hn
    refine ⟨digits, hchars, hdigits, ?_⟩
    rw [hvalue]
    have hcast : (n : Int) = ((2 ^ 63 : Nat) : Int) := by
      rw [minInt64] at heq
      simpa using heq
    exact Int.ofNat.inj hcast
  · exact (unsigned hread).elim

theorem isInt64_iff {n : Int} : isInt64 n = true ↔ minInt64 ≤ n ∧ n ≤ maxInt64 := by
  rw [isInt64, Bool.and_eq_true, decide_eq_true_eq, decide_eq_true_eq]

/-- Only the smallest integer has no negative. -/
theorem readInt64?_of_negated_eq_error {step : Printed} {operation : Overflow}
    (h : step.negated = .error operation) : readInt64? step.text = some minInt64 := by
  rw [Printed.negated] at h
  cases hread : readInt64? step.text with
  | none =>
      rw [hread] at h
      cases h
  | some value =>
      have hrange : isInt64 value = true := by
        rw [readInt64?] at hread
        exact (Option.filter_eq_some_iff.mp hread).2
      rw [hread] at h
      dsimp only at h
      rw [negInt64] at h
      split at h
      · cases h
      · rename_i hneg
        rw [isInt64_iff, minInt64, maxInt64] at hrange hneg
        have hvalue : value = minInt64 := by
          rw [minInt64]
          omega
        rw [hvalue]

/-- The literal of the smallest integer has no value as an integer, so it counts as fractional. -/
theorem Expr.IsLeastLiteral.isFractionalLiteral {e : Expr} (h : e.IsLeastLiteral) :
    e.isFractionalLiteral = true := by
  obtain ⟨span, span', text, rfl, hdigits, hvalue⟩ := h
  have hnone : numeralInteger? text = none := by
    rw [numeralInteger?]
    dsimp only
    split
    · rfl
    · rw [hvalue, if_neg (by decide)]
  simp [Expr.isFractionalLiteral, Expr.literalNumber?, Expr.literalInteger?, hnone]

section Print

variable {target : Target} {spellings? : Option Spellings}

theorem hasForeign_parenthesized (printed : Printed) : HasForeign printed.parenthesized := by
  rw [Printed.parenthesized, hasForeign_append, hasForeign_append]
  exact .inl (.inl (by decide))

/-- What a dialect writes for a truth value, around a position and for a negated condition is
in no integer. -/
theorem hasForeign_dialect (target : Target) :
    HasForeign target.dialect.trueWord ∧ HasForeign target.dialect.falseWord ∧
      HasForeign target.dialect.openIndex ∧ HasForeign target.dialect.not := by
  cases target <;> decide

theorem hasForeign_random (least greatest : Printed) :
    HasForeign (target.dialect.random least greatest).text := by
  have hplus : HasForeign " + " := by decide
  have hrandint : HasForeign "random.randint(" := by decide
  have hrand : HasForeign "rand(" := by decide
  cases target with
  | javaScript =>
      simp [Target.dialect, Dialect.javaScript, Dialect.shiftedRandom, hasForeign_append, hplus]
  | python => simp [Target.dialect, Dialect.python, Printed.primary, hasForeign_append, hrandint]
  | vba => simp [Target.dialect, Dialect.vba, Dialect.shiftedRandom, hasForeign_append, hplus]
  | ruby => simp [Target.dialect, Dialect.ruby, Printed.primary, hasForeign_append, hrand]

theorem hasForeign_binaryDigits (x : Printed) :
    HasForeign (target.dialect.binaryDigits x).text := by
  have hnumber : HasForeign "Number(" := by decide
  have hformat : HasForeign "format(" := by decide
  have hsheet : HasForeign "WorksheetFunction.Dec2Bin(" := by decide
  have hdigits : HasForeign ".to_s(2)" := by decide
  cases target with
  | javaScript =>
      simp [Target.dialect, Dialect.javaScript, Printed.primary, hasForeign_append, hnumber]
  | python => simp [Target.dialect, Dialect.python, Printed.primary, hasForeign_append, hformat]
  | vba => simp [Target.dialect, Dialect.vba, Printed.primary, hasForeign_append, hsheet]
  | ruby => simp [Target.dialect, Dialect.ruby, Printed.primary, hasForeign_append, hdigits]

/-- A call of a built-in prints as no integer. -/
theorem hasForeign_builtin (function : Builtin) (args : List Printed) :
    HasForeign ((target.printer spellings?).builtin function args).text := by
  have hopen : HasForeign "(" := by decide
  have hblank : HasForeign " " := by decide
  unfold ExprPrinter.builtin
  split
  · simp [Printed.primary, hasForeign_append, hopen]
  · simp [Printed.primary, hasForeign_append, hopen]
  · exact hasForeign_random _ _
  · simp [hasForeign_append, hblank]
  · exact hasForeign_binaryDigits _
  · simp [Printed.primary, hasForeign_append, hopen]

/-- An operation prints as no integer, because there are blanks around the operator. -/
theorem hasForeign_binary (op : BinaryOp) (left right : Printed) :
    HasForeign ((target.printer spellings?).binary op left right).text := by
  have hblank : HasForeign " " := by decide
  unfold ExprPrinter.binary
  dsimp only
  split
  · simp [Printed.primary, hasForeign_append, hblank]
  · simp [hasForeign_append, hblank]

/-- Only numbers and their negations print as integers. -/
theorem hasForeign_print (hspellings : ∀ spellings ∈ spellings?, spellings.Lettered) {e : Expr}
    (he : e.OwnWorded) (hnumber : ∀ span text, e ≠ .number span text)
    (hnegate : ∀ span operand, e ≠ .unary span .negate operand) :
    HasForeign ((target.printer spellings?).print e).text := by
  cases e with
  | number span text => exact absurd rfl (hnumber span text)
  | string span contents =>
      rw [ExprPrinter.print]
      refine ⟨'"', ?_, by decide, by decide⟩
      simp [Printed.primary, Dialect.stringLiteral]
  | bool span value =>
      rw [ExprPrinter.print]
      cases value with
      | true => exact (hasForeign_dialect target).1
      | false => exact (hasForeign_dialect target).2.1
  | name span word =>
      rw [ExprPrinter.print]
      exact ExprPrinter.name_of_rename (P := HasForeign) _
        (hasForeign_of_head? (fun _ => not_digit_of_isNameStart) he)
        fun spellings hmem => (hspellings spellings hmem).hasForeign_rename he
  | index span base position =>
      have hopen : HasForeign (target.printer spellings?).dialect.openIndex :=
        (hasForeign_dialect target).2.2.1
      rw [ExprPrinter.print]
      simp [Printed.primary, hasForeign_append, hopen]
  | call span word args userDefined =>
      have hopen : HasForeign "(" := by decide
      rw [ExprPrinter.print]
      simp [Printed.primary, hasForeign_append, hopen]
  | builtin span function args =>
      rw [ExprPrinter.print]
      exact hasForeign_builtin function _
  | unary span op operand =>
      cases op with
      | negate => exact absurd rfl (hnegate span operand)
      | not =>
          have hnot : HasForeign (target.printer spellings?).dialect.not :=
            (hasForeign_dialect target).2.2.2
          rw [ExprPrinter.print]
          simp [ExprPrinter.unary, hasForeign_append, hnot]
  | binary span op left right =>
      rw [ExprPrinter.print]
      exact hasForeign_binary op _ _
  | group span inner =>
      rw [ExprPrinter.print]
      exact hasForeign_parenthesized _

/-- Where a negation prints as a sign with digits, it negates a number of these digits. -/
theorem exists_number_of_negate (hspellings : ∀ spellings ∈ spellings?, spellings.Lettered)
    {span : Span} {operand : Expr}
    (he : operand.OwnWorded) {digits : List Char} (hdigits : digits.all isAsciiDigit = true)
    (h : ((target.printer spellings?).print (.unary span .negate operand)).text.toList =
      '-' :: digits) :
    ∃ span' text, operand = .number span' text ∧ text.toList = digits := by
  obtain ⟨bound, hbound, htext⟩ : ∃ bound : Precedence, ¬ bound < .unary ∧
      (((target.printer spellings?).print operand).tighterThan bound).toList = digits := by
    rw [ExprPrinter.print, ExprPrinter.unary] at h
    dsimp only at h
    rw [String.toList_append] at h
    refine ⟨_, ?_, (List.cons.inj h).2⟩
    split <;> decide
  rw [Printed.tighterThan] at htext
  split at htext
  · rename_i hlevel
    have hforeign := not_hasForeign_of_digits htext hdigits
    by_cases hnumber : ∃ span' text, operand = .number span' text
    · obtain ⟨span', text, rfl⟩ := hnumber
      exact ⟨span', text, rfl, htext⟩
    · exfalso
      apply hforeign
      apply hasForeign_print hspellings he
      · intro span' text heq
        exact hnumber ⟨span', text, heq⟩
      · rintro span' inner rfl
        exact hbound hlevel
  · exact absurd (hasForeign_parenthesized _) (not_hasForeign_of_digits htext hdigits)

/-- A step whose sign cannot be changed is the literal of the smallest integer. -/
theorem isLeastLiteral_of_negated_eq_error
    (hspellings : ∀ spellings ∈ spellings?, spellings.Lettered) {e : Expr}
    (he : e.Worded) {operation : Overflow}
    (h : ((target.printer spellings?).print e).negated = .error operation) :
    e.IsLeastLiteral := by
  obtain ⟨digits, htext, hdigits, hvalue⟩ :=
    readInt64?_eq_minInt64 (readInt64?_of_negated_eq_error h)
  have hforeign := not_hasForeign_of_signed htext hdigits
  by_cases hnegate : ∃ span operand, e = .unary span .negate operand
  · obtain ⟨span, operand, rfl⟩ := hnegate
    obtain ⟨span', text, rfl, hchars⟩ :=
      exists_number_of_negate hspellings (Expr.worded_unary.mp he).own hdigits htext
    exact ⟨span, span', text, rfl, by rw [hchars]; exact hdigits, by rw [hchars]; exact hvalue⟩
  · exfalso
    apply hforeign
    apply hasForeign_print hspellings he.own
    · rintro span text rfl
      have hdigit : text.toList.head?.any isAsciiDigit = true := he.own
      have hsign : text.toList = '-' :: digits := htext
      rw [hsign, List.head?_cons] at hdigit
      exact absurd hdigit (by decide)
    · intro span operand heq
      exact hnegate ⟨span, operand, heq⟩

end Print

end BlockCode
