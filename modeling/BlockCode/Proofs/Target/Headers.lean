/- # Headers of counting loops

What a counting loop does is read from the text of its lines, in each target by the rules of the
target: Python stops its ranges before the end that is given, while the ends of the other loops
belong to them; a step that leads down turns the comparison around; and a call on a number needs
the number to stand as one unit. A loop that is read has a first value, a step and a bound, and
from these come the values of its variable, pass by pass.

Numbers are whole ones here, as the targets read them: decimal digits without a zero in front, in
parentheses or behind a minus sign if they like. Two minus signs in a row are not read, since they
are a sign of their own in some targets.
-/

import BlockCode.Proofs.Expr.Relexing
import BlockCode.Proofs.Text.Digits
import BlockCode.Target.Action

namespace BlockCode

/-! ## Loops -/

/-- What the variable of a counting loop is compared with before each pass. -/
inductive Bound where
  | atMost (last : Int)
  | below (stop : Int)
  | atLeast (last : Int)
  | above (stop : Int)
  deriving DecidableEq, Repr

/-- Whether the loop makes a pass with the value. -/
def Bound.admits : Bound → Int → Bool
  | atMost last, value => value ≤ last
  | below stop, value => value < stop
  | atLeast last, value => last ≤ value
  | above stop, value => stop < value

namespace Direction

/-- The direction in which a step leads. -/
def ofStep? (step : Int) : Option Direction :=
  if 0 < step then some .up else if step < 0 then some .down else none

/-- What a step adds in the direction. -/
def signed : Direction → Int → Int
  | up, step => step
  | down, step => -step

/-- The bound of a loop to which its end belongs. -/
def inclusive : Direction → Int → Bound
  | up, last => .atMost last
  | down, last => .atLeast last

/-- The bound of a loop to which its end does not belong. -/
def exclusive : Direction → Int → Bound
  | up, stop => .below stop
  | down, stop => .above stop

/-- The comparison with the end. -/
def compare : Direction → String
  | up => "<="
  | down => ">="

/-- The sign of the step. -/
def sign : Direction → String
  | up => "+"
  | down => "-"

/-- The operator of an assignment that makes the step. -/
def assignment : Direction → String
  | up => " += "
  | down => " -= "

/-- Whether a value is not past the last one. -/
def reaches : Direction → Int → Int → Bool
  | up, last, value => value ≤ last
  | down, last, value => last ≤ value

/-- The value after so many steps, if it is not past the last one. -/
def countTo? (direction : Direction) (first last step : Int) (n : Nat) : Option Int :=
  (some (first + n * direction.signed step)).filter (direction.reaches last)

end Direction

/-- A counting loop: the first value of its variable, what is added after each pass, and the
bound. -/
structure CountingLoop where
  first : Int
  step : Int
  bound : Bound
  deriving DecidableEq, Repr

namespace CountingLoop

/-- The value of the variable in a pass, counted from zero, if the loop makes the pass. -/
def pass? (loop : CountingLoop) : Nat → Option Int
  | 0 => (some loop.first).filter loop.bound.admits
  | n + 1 => ((loop.pass? n).map (· + loop.step)).filter loop.bound.admits

/-- The loop, if nothing is left of the text but the word. -/
def endedBy? (loop : CountingLoop) (word : String) (text : List Char) : Option CountingLoop :=
  if text = word.toList then some loop else none

end CountingLoop

/-! ## Numbers -/

/-- Digits without a zero in front of others. -/
def isPlainNumeral (digits : List Char) : Bool :=
  !digits.isEmpty && digits.all isAsciiDigit && (digits.head? != some '0' || digits.length == 1)

/-- The whole number that a text starts with, and what stands behind it. A minus sign may be in
front of it where it may be signed. -/
def readWhole? (signed : Bool) : List Char → Option (Int × List Char)
  | [] => none
  | c :: rest =>
    if c == '-' then
      if signed then (readWhole? false rest).map fun (value, rest) => (-value, rest) else none
    else if c == '(' then
      match readWhole? true rest with
      | some (value, ')' :: rest) => some (value, rest)
      | _ => none
    else
      let digits := (c :: rest).takeWhile isAsciiDigit
      if isPlainNumeral digits then
        some (digitsValue digits, (c :: rest).dropWhile isAsciiDigit)
      else none

/-- No digit comes next. -/
def EndsNumeral (rest : List Char) : Prop :=
  rest.head?.any isAsciiDigit = false

/-- The word starts with a character that is no digit. -/
def startsApart (word : String) : Bool :=
  word.toList.head?.any fun c => !isAsciiDigit c

theorem endsNumeral_append {word : String} (h : startsApart word = true) (rest : List Char) :
    EndsNumeral (word.toList ++ rest) := by
  rw [startsApart] at h
  rw [EndsNumeral]
  cases hword : word.toList with
  | nil =>
      rw [hword] at h
      cases h
  | cons c chars =>
      rw [hword, List.head?_cons, Option.any_some, Bool.not_eq_true'] at h
      rw [List.cons_append, List.head?_cons, Option.any_some, h]

/-- The text is read as the number before everything that is no digit. -/
def ReadsWhole (signed : Bool) (text : String) (value : Int) : Prop :=
  ∀ rest, EndsNumeral rest → readWhole? signed (text.toList ++ rest) = some (value, rest)

section Whole

variable {signed : Bool} {text : String} {value : Int}

/-- Before a word that does not go on with digits. -/
theorem ReadsWhole.before (h : ReadsWhole signed text value) {word : String}
    (hword : startsApart word = true) (rest : List Char) :
    readWhole? signed (text.toList ++ (word.toList ++ rest)) =
      some (value, word.toList ++ rest) :=
  h _ (endsNumeral_append hword rest)

theorem ReadsWhole.before_last (h : ReadsWhole signed text value) {word : String}
    (hword : startsApart word = true) :
    readWhole? signed (text.toList ++ word.toList) = some (value, word.toList) := by
  have hread := h.before hword []
  rwa [List.append_nil] at hread

/-- At the end of a text. -/
theorem ReadsWhole.alone (h : ReadsWhole signed text value) :
    readWhole? signed text.toList = some (value, []) := by
  have hread := h [] rfl
  rwa [List.append_nil] at hread

/-- What is read without a sign is read where a sign may be. -/
theorem readWhole?_true_of_false {text : List Char} {result : Int × List Char}
    (h : readWhole? false text = some result) : readWhole? true text = some result := by
  cases text with
  | nil => exact h
  | cons c rest =>
      rw [readWhole?] at h ⊢
      split
      · next hc =>
        rw [if_pos hc] at h
        cases h
      · next hc =>
        rwa [if_neg hc] at h

theorem ReadsWhole.of_unsigned (h : ReadsWhole false text value) : ReadsWhole true text value :=
  fun rest hrest => readWhole?_true_of_false (h rest hrest)

/-- A minus sign in front of what has none. -/
theorem ReadsWhole.negative (h : ReadsWhole false text value) :
    ReadsWhole true ("-" ++ text) (-value) := by
  intro rest hrest
  rw [String.toList_append, List.append_assoc]
  show (readWhole? false (text.toList ++ rest)).map _ = _
  rw [h rest hrest]
  rfl

/-- In parentheses everything is a unit. -/
theorem ReadsWhole.parenthesized (h : ReadsWhole true text value) :
    ReadsWhole signed ("(" ++ text ++ ")") value := by
  intro rest hrest
  rw [String.toList_append, String.toList_append, List.append_assoc, List.append_assoc]
  show (match readWhole? true (text.toList ++ (')' :: rest)) with
    | some (value, ')' :: rest) => some (value, rest)
    | _ => none) = _
  rw [h (')' :: rest) rfl]
  rfl

/-- A numeral reads as its value. -/
theorem readsWhole_ofList {digits : List Char} (h : isPlainNumeral digits = true) :
    ReadsWhole signed (String.ofList digits) (digitsValue digits) := by
  intro rest hrest
  have hdigits : ∀ d ∈ digits, isAsciiDigit d = true := by
    rw [isPlainNumeral, Bool.and_eq_true, Bool.and_eq_true, List.all_eq_true] at h
    exact h.1.2
  have hends : ∀ d ∈ rest.head?, isAsciiDigit d = false := by
    intro d hd
    rw [EndsNumeral, Option.mem_def.mp hd] at hrest
    exact hrest
  obtain ⟨htake, hdrop⟩ := takeWhile_append_of_head hdigits hends
  cases digits with
  | nil => cases h
  | cons d digits =>
      have hd := hdigits d (.head _)
      have hminus : (d == '-') = false := by
        rw [← Bool.not_eq_true, beq_iff_eq]
        rintro rfl
        exact absurd hd (by decide)
      have hparen : (d == '(') = false := by
        rw [← Bool.not_eq_true, beq_iff_eq]
        rintro rfl
        exact absurd hd (by decide)
      rw [String.toList_ofList, List.cons_append, readWhole?, hminus, hparen,
        if_neg Bool.false_ne_true, if_neg Bool.false_ne_true, ← List.cons_append, htake, hdrop]
      dsimp only
      rw [if_pos h]

theorem isPlainNumeral_toDigits (n : Nat) : isPlainNumeral (Nat.toDigits 10 n) = true := by
  rw [isPlainNumeral, Bool.and_eq_true, Bool.and_eq_true, List.all_eq_true]
  refine ⟨⟨?_, fun _ => isAsciiDigit_of_mem_toDigits⟩, ?_⟩
  · rw [List.isEmpty_eq_false_iff.mpr Nat.toDigits_ne_nil]
    rfl
  · rcases Nat.eq_zero_or_pos n with rfl | hn
    · rfl
    · rw [bne_iff_ne.mpr (head?_toDigits hn), Bool.true_or]

/-- So does what a number is written as. -/
theorem readsWhole_toString (n : Nat) : ReadsWhole signed (toString n) n := by
  have hread : ReadsWhole signed (toString n) (digitsValue (Nat.toDigits 10 n)) :=
    readsWhole_ofList (isPlainNumeral_toDigits n)
  rwa [digitsValue_toDigits] at hread

theorem readsWhole_toString_int (i : Int) : ReadsWhole true (toString i) i := by
  cases i with
  | ofNat n => exact readsWhole_toString n
  | negSucc n => exact ReadsWhole.negative (readsWhole_toString (n + 1))

end Whole

/-! ## Readers -/

/-- The direction that a text starts with, when each has its word. -/
def readDirection? (up down : String) (text : List Char) : Option (Direction × List Char) :=
  match afterWord? up.toList text with
  | some text => some (.up, text)
  | none => (afterWord? down.toList text).map fun text => (.down, text)

namespace Python

/-- A loop over a range. Its end is not part of it. -/
def readRange? (counter : String) (text : List Char) : Option CountingLoop := do
  let text ← afterWord? "for ".toList text
  let text ← afterWord? counter.toList text
  let text ← afterWord? " in range(".toList text
  let (first, text) ← readWhole? true text
  let text ← afterWord? ", ".toList text
  let (stop, text) ← readWhole? true text
  match afterWord? ", ".toList text with
  | none => CountingLoop.endedBy? ⟨first, 1, .below stop⟩ "):" text
  | some text => do
    let (step, text) ← readWhole? true text
    let direction ← Direction.ofStep? step
    CountingLoop.endedBy? ⟨first, step, direction.exclusive stop⟩ "):" text

/-- A loop with a condition, between the assignment before it and the one at the end of its
body. -/
def readWhile? (counter : String) (text : List Char) : Option CountingLoop := do
  let text ← afterWord? counter.toList text
  let text ← afterWord? " = ".toList text
  let (first, text) ← readWhole? true text
  let text ← afterWord? "\n".toList text
  let text ← afterWord? "while ".toList text
  let text ← afterWord? counter.toList text
  let (side, text) ← readDirection? " <= " " >= " text
  let (last, text) ← readWhole? true text
  let text ← afterWord? ":".toList text
  let text ← afterWord? "\n".toList text
  let text ← afterWord? counter.toList text
  let (direction, text) ← readDirection? " += " " -= " text
  let (step, text) ← readWhole? true text
  CountingLoop.endedBy? ⟨first, direction.signed step, side.inclusive last⟩ "" text

end Python

namespace JavaScript

/-- What is added to the variable. -/
def readAdvance? (text : List Char) : Option (Int × List Char) :=
  match readDirection? "++" "--" text with
  | some (direction, text) => some (direction.signed 1, text)
  | none => do
    let (direction, text) ← readDirection? " += " " -= " text
    let (step, text) ← readWhole? true text
    return (direction.signed step, text)

/-- A loop with its three clauses. -/
def readFor? (counter : String) (text : List Char) : Option CountingLoop := do
  let text ← afterWord? "for (let ".toList text
  let text ← afterWord? counter.toList text
  let text ← afterWord? " = ".toList text
  let (first, text) ← readWhole? true text
  let text ← afterWord? "; ".toList text
  let text ← afterWord? counter.toList text
  let (side, text) ← readDirection? " <= " " >= " text
  let (last, text) ← readWhole? true text
  let text ← afterWord? "; ".toList text
  let text ← afterWord? counter.toList text
  let (step, text) ← readAdvance? text
  CountingLoop.endedBy? ⟨first, step, side.inclusive last⟩ ") \x7b" text

end JavaScript

namespace Vba

/-- A loop from one value to another, by ones or by a step. -/
def readFor? (counter : String) (text : List Char) : Option CountingLoop := do
  let text ← afterWord? "For ".toList text
  let text ← afterWord? counter.toList text
  let text ← afterWord? " = ".toList text
  let (first, text) ← readWhole? true text
  let text ← afterWord? " To ".toList text
  let (last, text) ← readWhole? true text
  match afterWord? " Step ".toList text with
  | none => CountingLoop.endedBy? ⟨first, 1, .atMost last⟩ "" text
  | some text => do
    let (step, text) ← readWhole? true text
    let direction ← Direction.ofStep? step
    CountingLoop.endedBy? ⟨first, step, direction.inclusive last⟩ "" text

end Vba

namespace Ruby

/-- What stands between the call of a loop and its body. -/
def blockStart (counter : String) : String :=
  " do |" ++ counter ++ "|"

/-- A call on the first value, which counts down by ones or by a step. -/
def readCall? (counter : String) (first : Int) (text : List Char) : Option CountingLoop :=
  match afterWord? ".downto(".toList text with
  | some text => do
    let (last, text) ← readWhole? true text
    CountingLoop.endedBy? ⟨first, -1, .atLeast last⟩ (")" ++ blockStart counter) text
  | none => do
    let text ← afterWord? ".step(".toList text
    let (last, text) ← readWhole? true text
    let text ← afterWord? ", ".toList text
    let (step, text) ← readWhole? true text
    let direction ← Direction.ofStep? step
    CountingLoop.endedBy? ⟨first, step, direction.inclusive last⟩ (")" ++ blockStart counter) text

/-- A call on a range, whose end is part of it. -/
def readEach? (counter : String) (text : List Char) : Option CountingLoop := do
  let text ← afterWord? "(".toList text
  let (first, text) ← readWhole? true text
  let text ← afterWord? "..".toList text
  let (last, text) ← readWhole? true text
  CountingLoop.endedBy? ⟨first, 1, .atMost last⟩ (").each" ++ blockStart counter) text

/-- A call on a number, or else on a range. -/
def readLoop? (counter : String) (text : List Char) : Option CountingLoop :=
  match readWhole? false text with
  | some (first, text) => readCall? counter first text
  | none => readEach? counter text

end Ruby

/-- What a counting loop does in a target, from the lines of its header and its footer. -/
def Target.readLoop? (target : Target) (counter : String) :
    List String → List String → Option CountingLoop
  | [header], [] =>
    match target with
    | .python => Python.readRange? counter header.toList
    | _ => none
  | [header], [footer] =>
    match target with
    | .javaScript => if footer = "\x7d" then JavaScript.readFor? counter header.toList else none
    | .vba => if footer = "Next " ++ counter then Vba.readFor? counter header.toList else none
    | .ruby => if footer = "end" then Ruby.readLoop? counter header.toList else none
    | .python => none
  | [start, condition], [advance] =>
    match target with
    | .python =>
      Python.readWhile? counter (start ++ "\n" ++ condition ++ "\n" ++ advance).toList
    | _ => none
  | _, _ => none

example : Target.ruby.readLoop? "i" ["(-3).step(5, 2) do |i|"] ["end"] =
    some ⟨-3, 2, .atMost 5⟩ := by
  decide

/-! ## The passes of a loop -/

namespace CountingLoop

/-- The loop counts in the direction from the first value to the last one. -/
structure Counts (loop : CountingLoop) (direction : Direction) (first last step : Int) : Prop where
  first_eq : loop.first = first
  step_eq : loop.step = direction.signed step
  admits_eq : ∀ value, loop.bound.admits value = direction.reaches last value

/-- Where a value is not past the last one, the value a step before it is not either. -/
theorem reaches_of_succ {direction : Direction} {first last step : Int} (hstep : 1 ≤ step) {n : Nat}
    (h : direction.reaches last (first + (n + 1 : Nat) * direction.signed step) = true) :
    direction.reaches last (first + n * direction.signed step) = true := by
  have hnext (step' : Int) : ((n + 1 : Nat) : Int) * step' = n * step' + step' := by
    rw [Int.natCast_succ, Int.add_mul, Int.one_mul]
  rw [hnext] at h
  cases direction with
  | up =>
      rw [Direction.reaches, decide_eq_true_eq] at h ⊢
      rw [Direction.signed] at h ⊢
      omega
  | down =>
      rw [Direction.reaches, decide_eq_true_eq] at h ⊢
      rw [Direction.signed] at h ⊢
      omega

/-- A counting loop makes one pass with each value up to the last one. -/
theorem Counts.pass?_eq {loop : CountingLoop} {direction : Direction} {first last step : Int}
    (h : loop.Counts direction first last step) (hstep : 1 ≤ step) (n : Nat) :
    loop.pass? n = direction.countTo? first last step n := by
  have hadmits : loop.bound.admits = direction.reaches last := funext h.admits_eq
  induction n with
  | zero => rw [pass?, Direction.countTo?, hadmits, h.first_eq, Int.natCast_zero, Int.zero_mul,
      Int.add_zero]
  | succ n ih =>
      have hnext : first + n * direction.signed step + direction.signed step =
          first + (n + 1 : Nat) * direction.signed step := by
        rw [Int.natCast_succ, Int.add_mul, Int.one_mul, Int.add_assoc]
      rw [pass?, ih, Direction.countTo?, Direction.countTo?, hadmits, h.step_eq]
      cases hn : direction.reaches last (first + n * direction.signed step) with
      | true => simp [Option.filter, hn, hnext]
      | false =>
          have hafter : direction.reaches last (first + (n + 1 : Nat) * direction.signed step) =
              false := by
            rw [← Bool.not_eq_true]
            intro hreaches
            rw [reaches_of_succ hstep hreaches] at hn
            cases hn
          simpa [Option.filter, hn] using hafter

theorem counts_inclusive (direction : Direction) (first last step : Int) :
    (⟨first, direction.signed step, direction.inclusive last⟩ : CountingLoop).Counts direction
      first last step := by
  cases direction with
  | up | down => exact ⟨rfl, rfl, fun _ => rfl⟩

theorem counts_exclusive (direction : Direction) (first last step : Int) :
    (⟨first, direction.signed step, direction.exclusive (last + direction.signed 1)⟩ :
      CountingLoop).Counts direction first last step := by
  cases direction with
  | up => exact ⟨rfl, rfl, fun _ => decide_eq_decide.mpr Int.lt_add_one_iff⟩
  | down => exact ⟨rfl, rfl, fun _ => decide_eq_decide.mpr Int.sub_one_lt_iff⟩

end CountingLoop

/-! ## What the readers read -/

theorem Direction.ofStep?_signed (direction : Direction) {step : Int} (hpos : 1 ≤ step) :
    ofStep? (direction.signed step) = some direction := by
  cases direction with
  | up => exact if_pos hpos
  | down =>
      rw [ofStep?, signed, if_neg (by omega), if_pos (by omega)]

theorem afterWord?_append (word text : List Char) : afterWord? word (word ++ text) = some text :=
  afterWord?_eq_some_iff.mpr rfl

section Words

variable (direction : Direction) (rest : List Char)

theorem readDirection?_compare :
    readDirection? " <= " " >= " (" ".toList ++ (direction.compare.toList ++
      (" ".toList ++ rest))) = some (direction, rest) := by
  cases direction with
  | up | down => rfl

theorem readDirection?_sign :
    readDirection? " += " " -= " (" ".toList ++ (direction.sign.toList ++
      ("= ".toList ++ rest))) = some (direction, rest) := by
  cases direction with
  | up | down => rfl

theorem readDirection?_assignment :
    readDirection? " += " " -= " (direction.assignment.toList ++ rest) =
      some (direction, rest) := by
  cases direction with
  | up | down => rfl

theorem JavaScript.readAdvance?_ones :
    readAdvance? (direction.sign.toList ++ (direction.sign.toList ++ rest)) =
      some (direction.signed 1, rest) := by
  cases direction with
  | up | down => rfl

theorem JavaScript.readAdvance?_step {text : List Char} {step : Int}
    (h : readWhole? true text = some (step, rest)) :
    readAdvance? (" ".toList ++ (direction.sign.toList ++ ("= ".toList ++ text))) =
      some (direction.signed step, rest) := by
  have hnone : readDirection? "++" "--"
      (" ".toList ++ (direction.sign.toList ++ ("= ".toList ++ text))) = none := by
    cases direction with
    | up | down => rfl
  rw [readAdvance?, hnone, readDirection?_sign]
  dsimp only
  rw [Option.bind_eq_bind, Option.bind_some, h]
  rfl

end Words

section Readers

variable {counter start stop amount : String} {a b c : Int} {direction : Direction}
  (hstart : ReadsWhole true start a) (hstop : ReadsWhole true stop b)
  (hby : ReadsWhole true amount c) (hdirection : Direction.ofStep? c = some direction)

section Ones

include hstart hstop

theorem Python.readRange?_ones :
    readRange? counter ("for " ++ counter ++ " in range(" ++ (start ++ ", " ++ stop) ++
      "):").toList = some ⟨a, 1, .below b⟩ := by
  have hshort : afterWord? ", ".toList "):".toList = none := rfl
  simp +decide only [String.toList_append, List.append_assoc, readRange?, afterWord?_append,
    Option.bind_eq_bind, Option.bind_some, hstart.before, hstop.before_last, hshort,
    CountingLoop.endedBy?, if_true]

theorem JavaScript.readFor?_ones (direction : Direction) :
    readFor? counter ("for (let " ++ counter ++ " = " ++ start ++ "; " ++ counter ++ " "
      ++ direction.compare ++ " " ++ stop ++ "; " ++ (counter ++ direction.sign ++ direction.sign)
      ++ ") \x7b").toList = some ⟨a, direction.signed 1, direction.inclusive b⟩ := by
  simp +decide only [String.toList_append, List.append_assoc, readFor?, afterWord?_append,
    Option.bind_eq_bind, Option.bind_some, hstart.before, hstop.before, readDirection?_compare,
    readAdvance?_ones, CountingLoop.endedBy?, if_true]

theorem Vba.readFor?_ones :
    readFor? counter ("For " ++ counter ++ " = " ++ start ++ " To " ++ stop).toList =
      some ⟨a, 1, .atMost b⟩ := by
  have hshort : afterWord? " Step ".toList [] = none := rfl
  simp +decide only [String.toList_append, List.append_assoc, readFor?, afterWord?_append,
    Option.bind_eq_bind, Option.bind_some, hstart.before, hstop.alone, hshort,
    CountingLoop.endedBy?, if_true]

theorem Ruby.readLoop?_each :
    readLoop? counter ("(" ++ start ++ ".." ++ stop ++ ").each" ++ blockStart counter).toList =
      some ⟨a, 1, .atMost b⟩ := by
  have hrange (rest : List Char) : readWhole? false ("(".toList ++ (start.toList ++
      ("..".toList ++ rest))) = none := by
    show (match readWhole? true (start.toList ++ ("..".toList ++ rest)) with
      | some (value, ')' :: rest) => some (value, rest)
      | _ => none) = none
    rw [hstart.before (by decide)]
    rfl
  simp +decide only [String.toList_append, List.append_assoc, readLoop?, hrange, readEach?,
    afterWord?_append, Option.bind_eq_bind, Option.bind_some, hstart.before, hstop.before,
    CountingLoop.endedBy?, if_true]

end Ones

theorem Ruby.readLoop?_downto (hstart : ReadsWhole false start a)
    (hstop : ReadsWhole true stop b) :
    readLoop? counter (start ++ ".downto(" ++ stop ++ ")" ++ blockStart counter).toList =
      some ⟨a, -1, .atLeast b⟩ := by
  simp +decide only [String.toList_append, List.append_assoc, readLoop?, readCall?,
    afterWord?_append, Option.bind_eq_bind, Option.bind_some, hstart.before, hstop.before,
    CountingLoop.endedBy?, if_true]

section Steps

include hby

theorem JavaScript.readFor?_step (hstart : ReadsWhole true start a)
    (hstop : ReadsWhole true stop b) (direction : Direction) :
    readFor? counter ("for (let " ++ counter ++ " = " ++ start ++ "; " ++ counter ++ " "
      ++ direction.compare ++ " " ++ stop ++ "; "
      ++ (counter ++ " " ++ direction.sign ++ "= " ++ amount) ++ ") \x7b").toList =
        some ⟨a, direction.signed c, direction.inclusive b⟩ := by
  have hadvance := readAdvance?_step direction ") \x7b".toList (hby.before_last (by decide))
  simp +decide only [String.toList_append, List.append_assoc, readFor?, afterWord?_append,
    Option.bind_eq_bind, Option.bind_some, hstart.before, hstop.before, readDirection?_compare,
    hadvance, CountingLoop.endedBy?, if_true]

theorem Python.readWhile?_step (hstart : ReadsWhole true start a)
    (hstop : ReadsWhole true stop b) (direction : Direction) :
    readWhile? counter (counter ++ " = " ++ start ++ "\n"
      ++ ("while " ++ counter ++ " " ++ direction.compare ++ " " ++ stop ++ ":") ++ "\n"
      ++ (counter ++ direction.assignment ++ amount)).toList =
        some ⟨a, direction.signed c, direction.inclusive b⟩ := by
  simp +decide only [String.toList_append, List.append_assoc, readWhile?, afterWord?_append,
    Option.bind_eq_bind, Option.bind_some, hstart.before, hstop.before, readDirection?_compare,
    readDirection?_assignment, hby.alone, CountingLoop.endedBy?, if_true]

include hdirection

theorem Python.readRange?_step (hstart : ReadsWhole true start a)
    (hstop : ReadsWhole true stop b) :
    readRange? counter ("for " ++ counter ++ " in range("
      ++ (start ++ ", " ++ stop ++ ", " ++ amount) ++ "):").toList =
        some ⟨a, c, direction.exclusive b⟩ := by
  simp +decide only [String.toList_append, List.append_assoc, readRange?, afterWord?_append,
    Option.bind_eq_bind, Option.bind_some, hstart.before, hstop.before, hby.before_last,
    hdirection, CountingLoop.endedBy?, if_true]

theorem Vba.readFor?_step (hstart : ReadsWhole true start a) (hstop : ReadsWhole true stop b) :
    readFor? counter ("For " ++ counter ++ " = " ++ start ++ " To " ++ stop ++ " Step "
      ++ amount).toList = some ⟨a, c, direction.inclusive b⟩ := by
  simp +decide only [String.toList_append, List.append_assoc, readFor?, afterWord?_append,
    Option.bind_eq_bind, Option.bind_some, hstart.before, hstop.before, hby.alone, hdirection,
    CountingLoop.endedBy?, if_true]

theorem Ruby.readLoop?_step (hstart : ReadsWhole false start a) (hstop : ReadsWhole true stop b) :
    readLoop? counter (start ++ ".step(" ++ stop ++ ", " ++ amount ++ ")"
      ++ blockStart counter).toList = some ⟨a, c, direction.inclusive b⟩ := by
  have hstep (rest : List Char) : afterWord? ".downto(".toList (".step(".toList ++ rest) = none :=
    rfl
  simp +decide only [String.toList_append, List.append_assoc, readLoop?, readCall?, hstep,
    afterWord?_append, Option.bind_eq_bind, Option.bind_some, hstart.before, hstop.before,
    hby.before, hdirection, CountingLoop.endedBy?, if_true]

end Steps

end Readers

end BlockCode
