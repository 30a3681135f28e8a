/- # Numerals read by a target

A target goes through a line of code from left to right. Digits are a numeral where no name goes on
with them and no string literal is open; a point with digits behind it makes a fraction of them, and
any other point ends them. So `1..5` has two numerals, `5.step` has one, and `x1` and `1e5` have
none.

A numeral stands for the number that its digits give in decimal notation. The exception is a zero in
front of further digits, for which each target has a rule of its own.
-/

import BlockCode.Expr.Literal
import BlockCode.Names.Spelling
import BlockCode.Proofs.Target.Literals
import Mathlib.Data.List.Perm.Subperm

namespace BlockCode

/-! ## Numbers -/

/-- A number in decimal notation: its digits without the point, and how many of them stand behind
the point. -/
structure Decimal where
  digits : Nat
  places : Nat
  deriving DecidableEq, Repr

/-- What a numeral stands for in decimal notation. -/
def decimal (numeral : List Char) : Decimal :=
  match piecesAt '.' numeral with
  | [whole, fraction] => ⟨digitsValue (whole ++ fraction), fraction.length⟩
  | _ => ⟨digitsValue numeral, 0⟩

/-- The program itself takes a literal for this number. -/
theorem numeralFloat_eq (text : String) :
    numeralFloat text =
      Binary64.ofDecimal false (decimal text.toList).digits
        (-((decimal text.toList).places : Int)) := by
  rw [numeralFloat, decimal]
  rcases piecesAt '.' text.toList with _ | ⟨whole, _ | ⟨fraction, _ | ⟨_, _⟩⟩⟩ <;> rfl

/-- A zero stands in front of another digit. -/
def leadsWithZero : List Char → Bool
  | '0' :: d :: _ => isAsciiDigit d
  | _ => false

/-- What digits stand for in octal notation. -/
def octal? (numeral : List Char) : Option Decimal :=
  if numeral.all fun d => isAsciiDigit d && d.toNat < '8'.toNat then
    some ⟨numeral.foldl (fun value d => 8 * value + (d.toNat - '0'.toNat)) 0, 0⟩
  else none

namespace Target

variable {target : Target} {numeral : List Char}

/-- The number that a target takes a numeral for. A zero in front of further digits makes it octal
in JavaScript and Ruby, where it has no fraction then; Python refuses it unless there is a fraction.
-/
def readNumeral? (target : Target) (numeral : List Char) : Option Decimal :=
  if leadsWithZero numeral then
    match target with
    | .javaScript | .ruby => octal? numeral
    | .python => if numeral.contains '.' then some (decimal numeral) else none
    | .vba => some (decimal numeral)
  else some (decimal numeral)

/-- The rules of the target for zeros in front do not change the numeral. -/
def keepsZeros (target : Target) (numeral : List Char) : Bool :=
  match target with
  | .javaScript | .ruby => !leadsWithZero numeral
  | .python => !leadsWithZero numeral || numeral.contains '.'
  | .vba => true

theorem readNumeral?_of_keepsZeros (h : target.keepsZeros numeral = true) :
    target.readNumeral? numeral = some (decimal numeral) := by
  unfold readNumeral?
  split
  · next hzero =>
    cases target with
    | javaScript | ruby =>
        rw [keepsZeros, hzero] at h
        cases h
    | python =>
        rw [keepsZeros, hzero] at h
        exact if_pos h
    | vba => rfl
  · rfl

theorem keepsZeros_of_not_leadsWithZero (h : leadsWithZero numeral = false) :
    target.keepsZeros numeral = true := by
  cases target <;> simp [keepsZeros, h]

end Target

/-! ## The state of a reader -/

/-- Where a reader stands in a line of code. -/
inductive CodeState where
  | between
  /-- In a name or a keyword. -/
  | word
  /-- Behind digits that may go on. -/
  | whole (digits : List Char)
  /-- Behind a point that may start a fraction. -/
  | point (digits : List Char)
  /-- Behind digits of a fraction. -/
  | fraction (numeral : List Char)
  /-- In a string literal. -/
  | quoted
  /-- Behind a backslash in a string literal. -/
  | escaped
  deriving DecidableEq, Repr

/-- Whether a word of the code goes on with the character. -/
def continuesWord (c : Char) : Bool :=
  isAsciiNamePart c || 128 ≤ c.toNat

theorem continuesWord_of_isAsciiDigit {c : Char} (h : isAsciiDigit c = true) :
    continuesWord c = true := by
  simp [continuesWord, isAsciiNamePart, h]

namespace CodeState

/-- The state behind a character that starts something. -/
def start (c : Char) : CodeState :=
  if c == '"' then .quoted
  else if isAsciiDigit c then .whole [c]
  else if continuesWord c then .word
  else .between

/-- The state behind the next character; `escapes` says whether the target has backslashes in its
string literals. -/
def next (escapes : Bool) (c : Char) : CodeState → CodeState
  | .between => start c
  | .word => if continuesWord c then .word else start c
  | .whole digits =>
    if isAsciiDigit c then .whole (digits ++ [c])
    else if continuesWord c then .word
    else if c == '.' then .point digits
    else start c
  | .point digits => if isAsciiDigit c then .fraction (digits ++ ['.', c]) else start c
  | .fraction numeral =>
    if isAsciiDigit c then .fraction (numeral ++ [c])
    else if continuesWord c then .word
    else start c
  | .quoted => if c == '"' then .between else if escapes && c == '\\' then .escaped else .quoted
  | .escaped => .quoted

/-- The numeral that ends in front of the next character. -/
def ended (c : Char) : CodeState → List (List Char)
  | .whole digits => if continuesWord c || c == '.' then [] else [digits]
  | .point digits => if isAsciiDigit c then [] else [digits]
  | .fraction numeral => if continuesWord c then [] else [numeral]
  | _ => []

/-- The numeral that ends here if nothing follows. -/
def pending : CodeState → List (List Char)
  | .whole numeral | .point numeral | .fraction numeral => [numeral]
  | _ => []

/-- No string literal is open. -/
def isOutside : CodeState → Bool
  | .quoted | .escaped => false
  | _ => true

/-- The state behind a text. -/
def after (escapes : Bool) (state : CodeState) (text : List Char) : CodeState :=
  text.foldl (fun state c => state.next escapes c) state

theorem after_append (escapes : Bool) (state : CodeState) (text text' : List Char) :
    state.after escapes (text ++ text') = (state.after escapes text).after escapes text' :=
  List.foldl_append

end CodeState

/-- The numerals in a text, from left to right. -/
def numeralsFrom (escapes : Bool) : CodeState → List Char → List (List Char)
  | state, [] => state.pending
  | state, c :: rest => state.ended c ++ numeralsFrom escapes (state.next escapes c) rest

/-- What stands in front of the text ends there: no word and no numeral goes on with it. -/
def StartsApart : List Char → Prop
  | [] => True
  | c :: rest =>
    continuesWord c = false ∧ (c = '.' → rest.head?.any (fun d => !isAsciiDigit d) = true)

instance : DecidablePred StartsApart
  | [] => isTrue trivial
  | _ :: _ => instDecidableAnd

section Splitting

variable {escapes : Bool}

/-- A text between tokens leaves nothing for what follows. -/
theorem numeralsFrom_append_of_between {state : CodeState} {text : List Char}
    (h : state.after escapes text = .between) (rest : List Char) :
    numeralsFrom escapes state (text ++ rest) =
      numeralsFrom escapes state text ++ numeralsFrom escapes .between rest := by
  induction text generalizing state with
  | nil =>
      obtain rfl : state = .between := h
      rfl
  | cons c text ih =>
      rw [List.cons_append, numeralsFrom, numeralsFrom, ih h, List.append_assoc]

/-- What starts apart is read as if nothing stood in front of it, but for a numeral that ends
there. -/
theorem after_of_startsApart {state : CodeState} (hstate : state.isOutside = true) {c : Char}
    {rest : List Char} (hrest : StartsApart (c :: rest)) :
    state.after escapes (c :: rest) = CodeState.between.after escapes (c :: rest) ∧
      numeralsFrom escapes state (c :: rest) =
        state.pending ++ numeralsFrom escapes .between (c :: rest) := by
  obtain ⟨hword, hpoint⟩ := hrest
  have hdigit : isAsciiDigit c = false := by
    rw [← Bool.not_eq_true]
    intro hdigit
    rw [continuesWord_of_isAsciiDigit hdigit] at hword
    cases hword
  cases state with
  | between => exact ⟨rfl, rfl⟩
  | word | point | fraction =>
      simp [CodeState.after, numeralsFrom, CodeState.next, CodeState.ended, CodeState.pending,
        hdigit, hword]
  | whole digits =>
      by_cases hdot : c = '.'
      · -- A point that no digit follows ends the numeral one character later.
        subst hdot
        cases rest with
        | nil => cases hpoint rfl
        | cons d rest =>
            have hd : isAsciiDigit d = false := by simpa using hpoint rfl
            simp [CodeState.after, numeralsFrom, CodeState.next, CodeState.ended,
              CodeState.pending, CodeState.start, hdigit, hword, hd]
      · simp [CodeState.after, numeralsFrom, CodeState.next, CodeState.ended, CodeState.pending,
          hdigit, hword, hdot]
  | quoted | escaped => cases hstate

theorem numeralsFrom_append_of_startsApart {state : CodeState} {text rest : List Char}
    (h : (state.after escapes text).isOutside = true) (hrest : StartsApart rest) :
    numeralsFrom escapes state (text ++ rest) =
      numeralsFrom escapes state text ++ numeralsFrom escapes .between rest := by
  induction text generalizing state with
  | nil =>
      cases rest with
      | nil => exact (List.append_nil _).symm
      | cons c rest => exact (after_of_startsApart h hrest).2
  | cons c text ih =>
      rw [List.cons_append, numeralsFrom, numeralsFrom, ih h, List.append_assoc]

end Splitting

/-! ## Lines of a target -/

namespace Target

variable {target : Target}

/-- Whether a backslash in a string literal takes the next character with it. -/
def escapes (target : Target) : Bool :=
  !target.literalRules.escapable.isEmpty

/-- The numerals that a target sees in a line of code. -/
def numerals (target : Target) (text : String) : List (List Char) :=
  numeralsFrom target.escapes .between text.toList

/-- The numbers that a target reads in a line of code. -/
def readNumbers (target : Target) (text : String) : List Decimal :=
  (target.numerals text).filterMap target.readNumeral?

/-- The numbers of those numerals that the rules for zeros in front do not change. -/
def decimals (target : Target) (numerals : List (List Char)) : List Decimal :=
  (numerals.filter target.keepsZeros).map decimal

/-- They are read as these numbers, each as often as its numeral is there. -/
theorem decimals_subperm_readNumbers {numerals : List (List Char)} {text : String}
    (h : numerals.Subperm (target.numerals text)) :
    (target.decimals numerals).Subperm (target.readNumbers text) := by
  have hread : target.decimals numerals =
      (numerals.filter target.keepsZeros).filterMap target.readNumeral? := by
    rw [decimals, ← List.filterMap_eq_map]
    refine List.filterMap_congr fun numeral hmem => ?_
    exact (readNumeral?_of_keepsZeros (List.mem_filter.mp hmem).2).symm
  rw [hread]
  obtain ⟨seen, hperm, hsub⟩ := h
  refine ((List.filter_sublist.filterMap _).subperm).trans ?_
  exact ⟨_, hperm.filterMap _, hsub.filterMap _⟩

end Target

/-- Ranges and calls end a numeral; names, strings and exponents have none. -/
example : Target.ruby.numerals "(1..x2).each + 10.5.step(1e5, \"7\\\"8\")" =
    ["1".toList, "10.5".toList] := by
  decide

/-- A zero in front makes a numeral octal in JavaScript and nothing in Python. -/
example : Target.javaScript.readNumbers "f(010, 0.5)" = [⟨8, 0⟩, ⟨5, 1⟩] ∧
    Target.python.readNumbers "f(010, 0.5)" = [⟨5, 1⟩] ∧
    Target.vba.readNumbers "f(010, 0.5)" = [⟨10, 0⟩, ⟨5, 1⟩] := by
  decide

end BlockCode
