/- # Counting loops in every target

A counting loop whose bounds and step are integer literals runs over the same values in every
target. The targets write it in different ways: Python moves the end of a range by one, a step of
one is left out or becomes an operator, a step down changes its sign, and where a literal does not
fit 64 bits Python makes a loop with a condition. What is read from their lines is one loop.
-/

import BlockCode.Proofs.Expr.Equality
import BlockCode.Proofs.Target.Headers
import BlockCode.Proofs.Target.Steps
import BlockCode.Target.Passage

namespace BlockCode

/-! ## Integer literals -/

/-- The value of an integer literal, through parentheses and minus signs. Nothing is too large, but
a numeral with a zero in front is no literal of every target. -/
def Expr.wholeLiteral? : Expr → Option Int
  | .number _ text => if isPlainNumeral text.toList then some (digitsValue text.toList) else none
  | .group _ inner => inner.wholeLiteral?
  | .unary _ .negate operand => operand.wholeLiteral?.map Int.neg
  | _ => none

/-- It is an integer literal if it is not too large. -/
theorem Expr.literalInteger?_of_wholeLiteral? {e : Expr} {value : Int}
    (h : e.wholeLiteral? = some value) :
    e.literalInteger? = if (value.natAbs : Int) ≤ maxInt64 then some value else none := by
  fun_induction Expr.wholeLiteral? e generalizing value with
  | case1 span text hplain =>
      cases h
      rw [isPlainNumeral, Bool.and_eq_true, Bool.and_eq_true, Bool.not_eq_true'] at hplain
      rw [literalInteger?, numeralInteger?]
      dsimp only
      rw [hplain.1.1, hplain.1.2]
      rfl
  | case2 => cases h
  | case3 span inner ih => exact ih h
  | case4 span operand ih =>
      obtain ⟨inner, hinner, rfl⟩ := Option.map_eq_some_iff.mp h
      rw [literalInteger?, ih hinner]
      have habs : (Int.neg inner).natAbs = inner.natAbs := Int.natAbs_neg inner
      rw [habs]
      split <;> rfl
  | case5 => cases h

theorem Expr.literalNumber?_of_wholeLiteral? {e : Expr} {value : Int}
    (h : e.wholeLiteral? = some value) : e.literalNumber?.isSome = true := by
  fun_induction Expr.wholeLiteral? e generalizing value with
  | case1 => rfl
  | case2 => cases h
  | case3 span inner ih => exact ih h
  | case4 span operand ih =>
      obtain ⟨inner, hinner, rfl⟩ := Option.map_eq_some_iff.mp h
      rw [literalNumber?, Option.isSome_map]
      exact ih hinner
  | case5 => cases h

/-- Where it is too large, it counts as a fraction. -/
theorem Expr.isFractionalLiteral_of_wholeLiteral? {e : Expr} {value : Int}
    (h : e.wholeLiteral? = some value) :
    e.isFractionalLiteral = !decide ((value.natAbs : Int) ≤ maxInt64) := by
  rw [isFractionalLiteral, literalNumber?_of_wholeLiteral? h, literalInteger?_of_wholeLiteral? h]
  by_cases hle : (value.natAbs : Int) ≤ maxInt64
  · rw [if_pos hle, decide_eq_true hle]
    rfl
  · rw [if_neg hle, decide_eq_false hle]
    rfl

/-- Where it does not, it is an integer literal within the range. -/
theorem Expr.literalInteger?_eq_of_not_fractional (e : Expr) {value : Int}
    (h : e.wholeLiteral? = some value) (hplain : e.isFractionalLiteral = false) :
    e.literalInteger? = some value ∧ (value.natAbs : Int) ≤ maxInt64 := by
  rw [isFractionalLiteral_of_wholeLiteral? h, Bool.not_eq_false', decide_eq_true_eq] at hplain
  exact ⟨by rw [literalInteger?_of_wholeLiteral? h, if_pos hplain], hplain⟩

/-! ## Printed literals -/

/-- The printed expression is read as the number, as a whole or as a unit, and binds as tightly as
a sign. -/
structure Printed.IsWhole (printed : Printed) (value : Int) : Prop where
  text_reads : ReadsWhole true printed.text value
  atom_reads : ReadsWhole false printed.atom value
  precedence_eq : printed.precedence = .primary ∨ printed.precedence = .unary

namespace Printed.IsWhole

variable {printed : Printed} {value : Int}

theorem primary {text : String} (h : ReadsWhole false text value) :
    (Printed.primary text).IsWhole value :=
  ⟨h.of_unsigned, h, .inl rfl⟩

/-- A place for additions takes it as it is. -/
theorem atLeast_additive (h : printed.IsWhole value) :
    printed.atLeast .additive = printed.text := by
  rw [atLeast, if_pos]
  rcases h.precedence_eq with heq | heq <;> rw [heq] <;> decide

theorem tighterThan_comparison (h : printed.IsWhole value) :
    printed.tighterThan .comparison = printed.text := by
  rw [tighterThan, if_pos]
  rcases h.precedence_eq with heq | heq <;> rw [heq] <;> decide

/-- An operator in front of it takes it as a unit. -/
theorem tighterThan_eq_atom (h : printed.IsWhole value) {level : Precedence}
    (hlevel : level = .unary ∨ level = .power) : printed.tighterThan level = printed.atom := by
  rw [tighterThan, atom, atLeast]
  rcases h.precedence_eq with heq | heq <;> rcases hlevel with rfl | rfl <;> rw [heq] <;> rfl

end Printed.IsWhole

/-- An integer literal is printed as its value. -/
theorem ExprPrinter.isWhole_print (p : ExprPrinter) {e : Expr} {value : Int}
    (h : e.wholeLiteral? = some value) : (p.print e).IsWhole value := by
  fun_induction Expr.wholeLiteral? e generalizing value with
  | case1 span text hplain =>
      cases h
      have hread := @readsWhole_ofList false _ hplain
      rw [String.ofList_toList] at hread
      rw [print]
      exact .primary hread
  | case2 => cases h
  | case3 span inner ih =>
      rw [print]
      exact .primary (ih h).text_reads.parenthesized
  | case4 span operand ih =>
      obtain ⟨inner, hinner, rfl⟩ := Option.map_eq_some_iff.mp h
      have hoperand := ih hinner
      have hunary : p.unary .negate (p.print operand) =
          ⟨"-" ++ (p.print operand).atom, .unary⟩ := by
        have hlevel : (if p.dialect.guardsPower then Precedence.power else .unary) = .unary ∨
            (if p.dialect.guardsPower then Precedence.power else .unary) = .power := by
          split <;> simp
        rw [unary, hoperand.tighterThan_eq_atom hlevel]
      have htext := hoperand.atom_reads.negative
      rw [print, hunary]
      exact ⟨htext, htext.parenthesized, .inr rfl⟩
  | case5 => cases h

/-! ## Computed numbers -/

/-- Digits are read as their value, if they are read at all. -/
theorem eq_digitsValue_of_readWhole? {signed : Bool} {digits rest : List Char} {value : Int}
    (hdigits : digits.all isAsciiDigit = true)
    (h : readWhole? signed digits = some (value, rest)) : value = digitsValue digits := by
  rw [List.all_eq_true] at hdigits
  cases digits with
  | nil => cases h
  | cons d digits =>
      have htake := (@takeWhile_append_of_head _ _ [] hdigits (by simp)).1
      rw [List.append_nil] at htake
      rw [readWhole?] at h
      split at h
      · next hd => exact absurd (hdigits d (.head _)) (by rw [eq_of_beq hd]; decide)
      · split at h
        · next hd => exact absurd (hdigits d (.head _)) (by rw [eq_of_beq hd]; decide)
        · rw [htake] at h
          dsimp only at h
          split at h
          · cases h
            rfl
          · cases h

/-- A written integer is read as the same number in both ways. -/
theorem eq_of_readInt64? {text : String} {value whole : Int} (h : readInt64? text = some value)
    (hwhole : readWhole? true text.toList = some (whole, [])) : value = whole := by
  rw [readInt64?] at h
  obtain ⟨hread, -⟩ := Option.filter_eq_some_iff.mp h
  split at hread
  · next digits htext =>
    rw [htext] at hwhole
    cases hwhole
  · next digits htext =>
    obtain ⟨n, hn, rfl⟩ := Option.map_eq_some_iff.mp hread
    obtain ⟨hdigits, rfl⟩ := readDigits?_eq_some hn
    rw [htext] at hwhole
    obtain ⟨⟨inner, rest⟩, hinner, heq⟩ := Option.map_eq_some_iff.mp hwhole
    obtain ⟨rfl, rfl⟩ := Prod.mk.inj heq
    rw [eq_digitsValue_of_readWhole? hdigits hinner]
    rfl
  · next digits _ _ =>
    obtain ⟨n, hn, rfl⟩ := Option.map_eq_some_iff.mp hread
    obtain ⟨hdigits, rfl⟩ := readDigits?_eq_some hn
    exact (eq_digitsValue_of_readWhole? hdigits hwhole).symm

/-- A step with the other sign is read as its negative. -/
theorem Printed.IsWhole.exists_negated {step : Printed} {value : Int} (h : step.IsWhole value)
    (hpos : 1 ≤ value) : ∃ text, step.negated = .ok text ∧ ReadsWhole true text (-value) := by
  rw [Printed.negated]
  cases hread : readInt64? step.text with
  | none =>
      refine ⟨_, rfl, ?_⟩
      rw [h.tighterThan_eq_atom (.inl rfl)]
      exact h.atom_reads.negative
  | some read =>
      obtain rfl := eq_of_readInt64? hread h.text_reads.alone
      have hrange : isInt64 (-read) = true := by
        rw [readInt64?] at hread
        have hin := isInt64_iff.mp (Option.filter_eq_some_iff.mp hread).2
        rw [isInt64_iff]
        rw [minInt64, maxInt64] at hin ⊢
        omega
      refine ⟨toString (-read), ?_, readsWhole_toString_int (-read)⟩
      dsimp only
      rw [negInt64, if_pos hrange]
      rfl

namespace Python

/-- The end of a range is read as the value behind the last one. -/
theorem exists_rangeStop (p : ExprPrinter) (direction : Direction) {last : Expr} {value : Int}
    (h : last.literalInteger? = some value) (hrange : (value.natAbs : Int) ≤ maxInt64)
    (hend : direction = .up → value ≠ maxInt64) :
    ∃ text, rangeStop p direction last = .ok text ∧
      ReadsWhole true text (value + direction.signed 1) := by
  have hnext : isInt64 (value + direction.signed 1) = true := by
    rw [isInt64_iff, minInt64]
    rw [maxInt64] at hrange hend ⊢
    cases direction with
    | up =>
        have hne := hend rfl
        rw [Direction.signed]
        omega
    | down =>
        rw [Direction.signed]
        omega
  refine ⟨toString (value + direction.signed 1), ?_, readsWhole_toString_int _⟩
  have hstop : rangeStop p direction last =
      (addInt64 value (direction.signed 1)).map toString := by
    unfold rangeStop
    rw [h]
    cases direction <;> rfl
  rw [hstop, addInt64, if_pos hnext]
  rfl

end Python

/-! ## Headers -/

/-- A step that is printed as the number one is one. -/
theorem Printed.IsWhole.eq_one {step : Printed} {value : Int} (h : step.IsWhole value)
    (hone : step.isOne = true) : value = 1 := by
  have hread := h.text_reads.alone
  rw [eq_of_beq hone] at hread
  cases hread
  rfl

theorem Ruby.append_blockStart (call counter : String) :
    call ++ " do |" ++ counter ++ "|" = call ++ blockStart counter := by
  rw [blockStart, String.append_assoc, String.append_assoc, String.append_assoc]

section Headers

variable {p : ExprPrinter} {counter first last step : Expr} {a b c : Int}
  (hfirst : (p.print first).IsWhole a) (hlast : (p.print last).IsWhole b)
  (hstep : (p.print step).IsWhole c)

include hfirst hlast hstep

theorem JavaScript.readFor?_loopHeader (direction : Direction) :
    readFor? (p.text counter) (loopHeader p direction counter first last step).toList =
      some ⟨a, direction.signed c, direction.inclusive b⟩ := by
  cases hone : (p.print step).isOne with
  | true =>
      obtain rfl := hstep.eq_one hone
      have htext := @readFor?_ones (p.text counter) _ _ _ _ hfirst.text_reads hlast.text_reads
        direction
      unfold loopHeader
      rw [hone]
      cases direction with
      | up | down => exact htext
  | false =>
      have htext := @readFor?_step (p.text counter) _ _ _ _ _ _ hstep.text_reads hfirst.text_reads
        hlast.text_reads direction
      unfold loopHeader
      rw [hone]
      cases direction with
      | up | down => exact htext

theorem Vba.exists_loopHeader (direction : Direction) (hpos : 1 ≤ c) :
    ∃ header, loopHeader p direction counter first last step = .ok header ∧
      readFor? (p.text counter) header.toList =
        some ⟨a, direction.signed c, direction.inclusive b⟩ := by
  unfold loopHeader
  cases direction with
  | up =>
      cases hone : (p.print step).isOne with
      | true =>
          obtain rfl := hstep.eq_one hone
          exact ⟨_, rfl, readFor?_ones hfirst.text_reads hlast.text_reads⟩
      | false =>
          exact ⟨_, rfl, readFor?_step hstep.text_reads (Direction.up.ofStep?_signed hpos)
            hfirst.text_reads hlast.text_reads⟩
  | down =>
      obtain ⟨text, hnegated, hby⟩ := hstep.exists_negated hpos
      rw [hnegated]
      exact ⟨_, rfl, readFor?_step hby (Direction.down.ofStep?_signed hpos) hfirst.text_reads
        hlast.text_reads⟩

theorem Ruby.exists_loopCall (direction : Direction) (hpos : 1 ≤ c) :
    ∃ call, loopCall p direction first last step = .ok call ∧
      readLoop? (p.text counter) (call ++ blockStart (p.text counter)).toList =
        some ⟨a, direction.signed c, direction.inclusive b⟩ := by
  unfold loopCall
  cases direction with
  | up =>
      cases hone : (p.print step).isOne with
      | true =>
          obtain rfl := hstep.eq_one hone
          refine ⟨_, rfl, ?_⟩
          rw [hfirst.atLeast_additive]
          exact readLoop?_each hfirst.text_reads hlast.text_reads
      | false =>
          exact ⟨_, rfl, readLoop?_step hstep.text_reads (Direction.up.ofStep?_signed hpos)
            hfirst.atom_reads hlast.text_reads⟩
  | down =>
      cases hone : (p.print step).isOne with
      | true =>
          obtain rfl := hstep.eq_one hone
          exact ⟨_, rfl, readLoop?_downto hfirst.atom_reads hlast.text_reads⟩
      | false =>
          obtain ⟨text, hnegated, hby⟩ := hstep.exists_negated hpos
          rw [hnegated]
          exact ⟨_, rfl, readLoop?_step hby (Direction.down.ofStep?_signed hpos) hfirst.atom_reads
            hlast.text_reads⟩

theorem Python.readWhile?_fractionHeader (direction : Direction) :
    ∃ start condition advance,
      (fractionHeader p direction counter first last).map CodeLine.text = [start, condition] ∧
        (footer p (.advance direction counter step)).map CodeLine.text = [advance] ∧
          readWhile? (p.text counter) (start ++ "\n" ++ condition ++ "\n" ++ advance).toList =
            some ⟨a, direction.signed c, direction.inclusive b⟩ := by
  have htext := @readWhile?_step (p.text counter) _ _ _ _ _ _ hstep.text_reads hfirst.text_reads
    hlast.text_reads direction
  unfold fractionHeader
  rw [hlast.tighterThan_comparison]
  cases direction with
  | up | down => exact ⟨_, _, _, rfl, rfl, htext⟩

omit hlast in
theorem Python.exists_rangeHeader (direction : Direction) (hpos : 1 ≤ c)
    (hstop : ∃ stop, rangeStop p direction last = .ok stop ∧
      ReadsWhole true stop (b + direction.signed 1)) :
    ∃ header, rangeHeader p direction counter first last step = .ok header ∧
      readRange? (p.text counter) header.toList =
        some ⟨a, direction.signed c, direction.exclusive (b + direction.signed 1)⟩ := by
  obtain ⟨stop, hok, hend⟩ := hstop
  unfold rangeHeader
  rw [hok]
  cases direction with
  | up =>
      cases hone : (p.print step).isOne with
      | true =>
          obtain rfl := hstep.eq_one hone
          exact ⟨_, rfl, readRange?_ones hfirst.text_reads hend⟩
      | false =>
          exact ⟨_, rfl, readRange?_step hstep.text_reads (Direction.up.ofStep?_signed hpos)
            hfirst.text_reads hend⟩
  | down =>
      obtain ⟨text, hnegated, hby⟩ := hstep.exists_negated hpos
      rw [hnegated]
      exact ⟨_, rfl, readRange?_step hby (Direction.down.ofStep?_signed hpos) hfirst.text_reads
        hend⟩

end Headers

/-! ## Statements -/

/-- What a target needs to know at the end of a loop with these bounds. -/
def Target.footerFor (target : Target) (direction : Direction) (counter first last step : Expr) :
    LoopFooter :=
  match target with
  | .javaScript | .ruby => .bare
  | .vba => .counter counter
  | .python =>
    if countsInFractions [first, last, step] then .advance direction counter step else .bare

/-- In every target the lines of a counting loop are read as a loop that counts from the first
value to the last one. -/
theorem Target.exists_lines_count (target : Target) (spellings? : Option Spellings)
    (direction : Direction)
    {counter first last step : Expr} {a b c : Int} (hfirst : first.wholeLiteral? = some a)
    (hlast : last.wholeLiteral? = some b) (hstep : step.wholeLiteral? = some c) (hpos : 1 ≤ c)
    (hend : direction = .up → b ≠ maxInt64) :
    ∃ header footer loop,
      target.lines spellings? (.count direction counter first last step) = .ok header ∧
      target.lines spellings? (.endCount (target.footerFor direction counter first last step)) =
        .ok footer ∧
      target.readLoop? ((target.printer spellings?).text counter) (header.map CodeLine.text)
        (footer.map CodeLine.text) = some loop ∧
      loop.Counts direction a b c := by
  have ha := (target.printer spellings?).isWhole_print hfirst
  have hb := (target.printer spellings?).isWhole_print hlast
  have hc := (target.printer spellings?).isWhole_print hstep
  cases target with
  | javaScript =>
      exact ⟨_, _, _, rfl, rfl, JavaScript.readFor?_loopHeader ha hb hc direction,
        CountingLoop.counts_inclusive direction a b c⟩
  | ruby =>
      obtain ⟨call, hcall, hread⟩ := @Ruby.exists_loopCall _ counter _ _ _ _ _ _ ha hb hc direction
        hpos
      rw [← Ruby.append_blockStart] at hread
      unfold Target.lines Ruby.lines
      dsimp only
      rw [hcall]
      exact ⟨_, _, _, rfl, rfl, hread, CountingLoop.counts_inclusive direction a b c⟩
  | vba =>
      obtain ⟨header, hheader, hread⟩ := @Vba.exists_loopHeader _ counter _ _ _ _ _ _ ha hb hc
        direction hpos
      unfold Target.lines Vba.lines
      dsimp only
      rw [hheader]
      refine ⟨_, _, _, rfl, rfl, ?_, CountingLoop.counts_inclusive direction a b c⟩
      exact (if_pos rfl).trans hread
  | python =>
      unfold Target.lines Python.lines footerFor
      dsimp only
      cases hfraction : countsInFractions [first, last, step] with
      | true =>
          obtain ⟨start, condition, advance, hheader, hfooter, hread⟩ :=
            @Python.readWhile?_fractionHeader _ counter _ _ _ _ _ _ ha hb hc direction
          refine ⟨_, _, _, rfl, rfl, ?_, CountingLoop.counts_inclusive direction a b c⟩
          rw [hheader, if_pos rfl, hfooter]
          exact hread
      | false =>
          obtain ⟨-, hplain, -⟩ : first.isFractionalLiteral = false ∧
              last.isFractionalLiteral = false ∧ step.isFractionalLiteral = false := by
            simpa [countsInFractions] using hfraction
          obtain ⟨hint, hrange⟩ := last.literalInteger?_eq_of_not_fractional hlast hplain
          obtain ⟨header, hheader, hread⟩ :=
            @Python.exists_rangeHeader _ counter _ last _ _ b _ ha hc direction hpos
              (Python.exists_rangeStop _ direction hint hrange hend)
          rw [if_neg Bool.false_ne_true, if_neg Bool.false_ne_true, hheader]
          exact ⟨_, _, _, rfl, rfl, hread, CountingLoop.counts_exclusive direction a b c⟩

namespace Statement

variable {s closing : Statement} {counter first last step : Expr}

theorem exprIn_of_prepare {slot : Nat} {e : Expr} (h : prepare (s.slot slot) = .ok e) :
    s.exprIn slot = .ok e := by
  rw [exprIn, h]
  rfl

/-- Where the slots read, looking for a fraction asks whether the loop counts in fractions. -/
theorem anyFraction_eq {slots : List Nat} {exprs : List Expr}
    (h : List.Forall₂ (fun slot e => s.exprIn slot = .ok e) slots exprs) :
    s.anyFraction slots = .ok (countsInFractions exprs) := by
  induction h with
  | nil => rfl
  | @cons slot e slots exprs he _ ih =>
      rw [anyFraction, he, countsInFractions, List.any_cons]
      change (if e.isFractionalLiteral = true then pure true else s.anyFraction slots) = _
      split
      · next hfraction =>
        rw [hfraction]
        rfl
      · next hplain =>
        rw [Bool.not_eq_true] at hplain
        rw [ih, hplain]
        rfl

section Loop

variable (hcounter : s.exprIn 0 = .ok counter) (hfirst : s.exprIn 1 = .ok first)
  (hlast : s.exprIn 2 = .ok last) (hstep : s.exprIn 3 = .ok step)

include hcounter hfirst hlast hstep

theorem action_count (hkind : s.kind = .forIncrement ∨ s.kind = .forDecrement) (target : Target)
    (loop? : Option StatementKind) (opener? : Option Statement) :
    s.action target loop? opener? = .ok (.count s.direction counter first last step) := by
  have haction : s.action target loop? opener? = (do
      return .count s.direction (← s.exprIn 0) (← s.exprIn 1) (← s.exprIn 2) (← s.exprIn 3)) := by
    rw [action]
    rcases hkind with hkind | hkind <;> rw [hkind]
  rw [haction, hcounter, hfirst, hlast, hstep]
  rfl

/-- Its closing line knows what the target needs. -/
theorem loopFooter_eq (target : Target) :
    closing.loopFooter target (some s) =
      .ok (target.footerFor s.direction counter first last step) := by
  cases target with
  | javaScript | ruby => rfl
  | vba =>
      simp only [loopFooter, openedBy, hcounter, bind, Except.bind]
      rfl
  | python =>
      have hfraction := anyFraction_eq (.cons hfirst (.cons hlast (.cons hstep .nil)))
      simp only [loopFooter, openedBy, hfraction, bind, Except.bind, Target.footerFor]
      split
      · simp only [hcounter, hstep]
        rfl
      · rfl

theorem action_endCount (hclosing : closing.kind = .endFor) (target : Target)
    (loop? : Option StatementKind) (openers : List Statement) :
    closing.action target loop? (closing.opener? (s :: openers)) =
      .ok (.endCount (target.footerFor s.direction counter first last step)) := by
  have hopener : closing.opener? (s :: openers) = some s := by
    rw [opener?, hclosing]
    rfl
  have haction : closing.action target loop? (some s) = (do
      return .endCount (← closing.loopFooter target (some s))) := by
    rw [action, hclosing]
  rw [hopener, haction, loopFooter_eq hcounter hfirst hlast hstep]
  rfl

end Loop

/-- The lines of a statement keep their texts where it stands. -/
theorem exists_passage_eq {s : Statement} {target : Target} {spellings? : Option Spellings}
    {place : Place} {openers : List Statement} {action : Action} {lines : List CodeLine}
    (haction : s.action target place.loop? (s.opener? openers) = .ok action)
    (hlines : target.lines spellings? action = .ok lines) :
    ∃ passage, s.passage target spellings? place openers = .ok passage ∧
      passage.lines.map CodeLine.text = lines.map CodeLine.text := by
  refine ⟨⟨action.exprs, lines.map (.indent place.depth)⟩, ?_, ?_⟩
  · rw [passage, haction]
    change (do
      let lines ← (target.lines spellings? action).mapError RenderError.overflow
      return (⟨action.exprs, lines.map (.indent place.depth)⟩ : Passage)) = _
    rw [hlines]
    rfl
  · rw [List.map_map]
    rfl

/-- A counting loop whose bounds and step are integer literals, with a step of at least one, runs
over the same values in every target: from the first value by the step, as long as the last one is
not passed. A loop up to the largest integer is left out, since the end of its range would lie
behind that. -/
theorem passages_count_alike (hkind : s.kind = .forIncrement ∨ s.kind = .forDecrement)
    (hclosing : closing.kind = .endFor) (hcounter : prepare (s.slot 0) = .ok counter)
    (hfirst : prepare (s.slot 1) = .ok first) (hlast : prepare (s.slot 2) = .ok last)
    (hstep : prepare (s.slot 3) = .ok step) {a b c : Int} (ha : first.wholeLiteral? = some a)
    (hb : last.wholeLiteral? = some b) (hc : step.wholeLiteral? = some c) (hpos : 1 ≤ c)
    (hend : s.kind = .forIncrement → b ≠ maxInt64) (target : Target) (spellings? : Option Spellings)
    (place place' : Place) (openers : List Statement) :
    ∃ header footer loop, s.passage target spellings? place openers = .ok header ∧
      closing.passage target spellings? place' (s :: openers) = .ok footer ∧
      target.readLoop? ((target.printer spellings?).text counter)
        (header.lines.map CodeLine.text) (footer.lines.map CodeLine.text) = some loop ∧
      ∀ n, loop.pass? n = s.direction.countTo? a b c n := by
  have hup : s.direction = .up → b ≠ maxInt64 := by
    intro hup
    refine hend (hkind.resolve_right fun hdown => ?_)
    rw [direction, hdown] at hup
    cases hup
  obtain ⟨headerLines, footerLines, loop, hheader, hfooter, hread, hcounts⟩ :=
    target.exists_lines_count spellings? s.direction ha hb hc hpos hup
  obtain ⟨header, hpassage, htexts⟩ := @exists_passage_eq s target spellings? place openers _ _
    (action_count (exprIn_of_prepare hcounter) (exprIn_of_prepare hfirst)
      (exprIn_of_prepare hlast) (exprIn_of_prepare hstep) hkind target place.loop? _) hheader
  obtain ⟨footer, hpassage', htexts'⟩ := exists_passage_eq
    (action_endCount (exprIn_of_prepare hcounter) (exprIn_of_prepare hfirst)
      (exprIn_of_prepare hlast) (exprIn_of_prepare hstep) hclosing target place'.loop? openers)
      hfooter
  refine ⟨header, footer, loop, hpassage, hpassage', ?_, hcounts.pass?_eq hpos⟩
  rw [htexts, htexts']
  exact hread

/-- A loop that counts down by threes, past zero. -/
def countdown : Statement :=
  ⟨"1", .forDecrement, ["i", "(10)", "-2", "3"], false, false⟩

/-- Where it ends. -/
def countdownEnd : Statement :=
  ⟨"2", .endFor, [], false, false⟩

theorem passages_count_alike_countdown : ∃ header footer loop,
    countdown.passage .python none {} [] = .ok header ∧
      countdownEnd.passage .python none {} [countdown] = .ok footer ∧
      Target.python.readLoop? "i" (header.lines.map CodeLine.text)
        (footer.lines.map CodeLine.text) = some loop ∧
      loop.pass? 4 = some (-2) ∧ loop.pass? 5 = none := by
  have hcounter : prepare "i" = .ok (.name ⟨0, 1⟩ "i") := by
    decide +kernel
  have hfirst : prepare "(10)" = .ok (.group ⟨0, 4⟩ (.number ⟨1, 3⟩ "10")) := by
    decide +kernel
  have hlast : prepare "-2" = .ok (.unary ⟨0, 2⟩ .negate (.number ⟨1, 2⟩ "2")) := by
    decide +kernel
  have hstep : prepare "3" = .ok (.number ⟨0, 1⟩ "3") := by
    decide +kernel
  obtain ⟨header, footer, loop, hheader, hfooter, hread, hpass⟩ :=
    @passages_count_alike countdown countdownEnd _ _ _ _ (.inr rfl) rfl hcounter hfirst hlast hstep
      10 (-2) 3 (by decide) (by decide) (by decide) (by decide)
      (fun h => by cases h) .python none {} {} []
  refine ⟨header, footer, loop, hheader, hfooter, hread, ?_, ?_⟩
  · rw [hpass]
    rfl
  · rw [hpass]
    rfl

end Statement

end BlockCode
