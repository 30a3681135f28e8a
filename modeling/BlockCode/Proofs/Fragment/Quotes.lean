/- # Where strings begin and end

Which quotes count is a matter of who reads. Folding takes a double quote, its full-width form
and both corner brackets for quotes, each of which opens a string and closes the one that is open.
The lexer and the scans behind folding know the double quote alone. A reading is therefore given
by the characters that it counts as quotes, and the two readings of a text are held against each
other.
-/

import BlockCode.Fragment.Glyphs
import Mathlib.Data.List.Infix

namespace BlockCode

/-- The quote that every reading knows. -/
def isDoubleQuote (c : Char) : Bool :=
  c == '"'

/-- A quote of any spelling: a double quote, its full-width form or a corner bracket. -/
def isQuote (c : Char) : Bool :=
  isCornerBracket c || foldWidth c == '"'

theorem isQuote_of_isDoubleQuote {c : Char} (h : isDoubleQuote c = true) : isQuote c = true := by
  rw [eq_of_beq h]
  rfl

namespace Quotation

/-- The place after a character, where the given characters open and close strings. -/
def next (quote : Char → Bool) : Quotation → Char → Quotation
  | .outside, c => if quote c then .inside else .outside
  | .inside, c => if c == '\\' then .escaped else if quote c then .outside else .inside
  | .escaped, _ => .inside

theorem next_isDoubleQuote (place : Quotation) (c : Char) :
    place.next isDoubleQuote c = place.after c := by
  cases place <;> rfl

/-- The place behind a text that starts at the place. -/
def past (quote : Char → Bool) (place : Quotation) (text : List Char) : Quotation :=
  text.foldl (next quote) place

section

variable {quote : Char → Bool} {place : Quotation} {c : Char} {text text' : List Char}

@[simp] theorem past_nil : place.past quote [] = place :=
  rfl

@[simp] theorem past_cons : place.past quote (c :: text) = (place.next quote c).past quote text :=
  rfl

@[simp] theorem past_append :
    place.past quote (text ++ text') = (place.past quote text).past quote text' :=
  List.foldl_append

/-- A character that is no quote and does not protect another leaves the place as it is, unless it
is protected itself. -/
theorem next_eq_self (hplace : place ≠ .escaped) (hquote : quote c = false) (hslash : c ≠ '\\') :
    place.next quote c = place := by
  cases place with
  | outside => exact if_neg (by simp [hquote])
  | inside => rw [next, if_neg (by simpa using hslash), if_neg (by simp [hquote])]
  | escaped => exact absurd rfl hplace

/-- Outside of strings only a quote leads to another place. -/
theorem past_outside (h : ∀ d ∈ text, quote d = false) :
    Quotation.outside.past quote text = .outside := by
  induction text with
  | nil => rfl
  | cons d text ih =>
      rw [List.forall_mem_cons] at h
      have hnext : Quotation.outside.next quote d = .outside := if_neg (by simp [h.1])
      rw [past_cons, hnext, ih h.2]

/-- A character that is no quote leads outside only from outside. -/
theorem eq_outside_of_next (hquote : quote c = false) (h : place.next quote c = .outside) :
    place = .outside := by
  cases place with
  | outside => rfl
  | inside =>
      rw [next] at h
      split at h
      · cases h
      · rw [if_neg (by simp [hquote])] at h
        cases h
  | escaped => cases h

/-- A text without quotes leads outside only from outside. -/
theorem eq_outside_of_past (htext : ∀ d ∈ text, quote d = false)
    (h : place.past quote text = .outside) : place = .outside := by
  induction text generalizing place with
  | nil => exact h
  | cons d text ih =>
      rw [List.forall_mem_cons] at htext
      exact eq_outside_of_next htext.1 (ih htext.2 h)

end

/-- Reading the text from the place never leads outside. -/
def Stays (quote : Char → Bool) (place : Quotation) (text : List Char) : Prop :=
  ∀ first, first <+: text → place.past quote first ≠ .outside

section

variable {quote : Char → Bool} {place : Quotation} {c : Char} {text : List Char}

instance : Decidable (Stays quote place text) :=
  decidable_of_iff (∀ first ∈ text.inits, place.past quote first ≠ .outside) (by simp [Stays])

theorem Stays.ne_outside (h : Stays quote place text) : place ≠ .outside :=
  h [] List.nil_prefix

theorem stays_nil : Stays quote place [] ↔ place ≠ .outside := by
  simp [Stays]

theorem stays_cons :
    Stays quote place (c :: text) ↔ place ≠ .outside ∧ Stays quote (place.next quote c) text := by
  constructor
  · intro h
    refine ⟨h.ne_outside, fun first hfirst => ?_⟩
    exact h (c :: first) (List.cons_prefix_cons.mpr ⟨rfl, hfirst⟩)
  · rintro ⟨hplace, htext⟩ first hfirst
    cases first with
    | nil => exact hplace
    | cons d first =>
        obtain ⟨rfl, hmore⟩ := List.cons_prefix_cons.mp hfirst
        exact htext first hmore

/-- Where no quote of any spelling ends a string, the double quotes alone read it alike. -/
theorem Stays.past_isDoubleQuote (h : Stays isQuote place text) :
    place.past isDoubleQuote text = place.past isQuote text := by
  induction text generalizing place with
  | nil => rfl
  | cons c text ih =>
      obtain ⟨hplace, hrest⟩ := stays_cons.mp h
      have hnext : place.next isDoubleQuote c = place.next isQuote c := by
        cases place with
        | outside => exact absurd rfl hplace
        | inside =>
            have hne := hrest.ne_outside
            by_cases hslash : (c == '\\') = true
            · rw [next, next, if_pos hslash, if_pos hslash]
            · rw [next, if_neg hslash] at hne
              have hquote : ¬ isQuote c = true := fun hquote => hne (if_pos hquote)
              rw [next, next, if_neg hslash, if_neg hslash, if_neg hquote,
                if_neg fun hdouble => hquote (isQuote_of_isDoubleQuote hdouble)]
        | escaped => rfl
      rw [past_cons, past_cons, hnext, ih hrest]

theorem Stays.isDoubleQuote (h : Stays isQuote place text) :
    Stays BlockCode.isDoubleQuote place text := by
  intro first hfirst
  have hpart : Stays isQuote place first := fun more hmore => h more (hmore.trans hfirst)
  rw [hpart.past_isDoubleQuote]
  exact h first hfirst

end

end Quotation

/-- The text has the contents in double quotes at this place, as a literal where the given
characters are quotes: what is in front of it leads outside, no quote ends it earlier, and no
backslash of it protects the last quote. -/
structure HasLiteral (quote : Char → Bool) (text front contents behind : List Char) : Prop where
  text_eq : text = front ++ '"' :: (contents ++ '"' :: behind)
  opens : Quotation.outside.past quote front = .outside
  holds : Quotation.inside.Stays quote contents
  closes : Quotation.inside.past quote contents = .inside

end BlockCode
