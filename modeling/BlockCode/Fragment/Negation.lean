/- # Trailing negation

A condition is negated by a marker behind it. Rewriting moves the negation to the front of
the operand that the marker follows, as the prefix operator that the parser knows. The operand
is found by reading backwards from the marker: a bracketed group together with the name in
front of it, or a bare name or number. Each step removes one marker, so rewriting ends.
-/

import BlockCode.Expr.Error
import BlockCode.Fragment.Quotation
import BlockCode.Text.Alphabetic
import BlockCode.Text.Basic
import BlockCode.Text.Blank

namespace BlockCode

/-- The word that negates what stands before it. -/
def negationMarker : List Char := ['で', 'な', 'い']

/-- Whether the character may belong to a bare operand. The colon joins the user marker to
the name behind it. -/
def isOperandChar (c : Char) : Bool :=
  isAlphanumeric c || c == '_' || c == '.' || c == ':'

/-- Splits the text at the first marker outside strings, leaving the marker out. -/
def splitAtMarkerFrom? (place : Quotation) : List Char → Option (List Char × List Char)
  | [] => none
  | c :: rest =>
    match place, afterWord? negationMarker (c :: rest) with
    | .outside, some behind => some ([], behind)
    | _, _ => (splitAtMarkerFrom? (place.after c) rest).map fun (front, behind) =>
      (c :: front, behind)

/-- How many characters of a reversed text it takes to come to the opening bracket that
matches the closing one at its front, when `depth` closing brackets are open already. -/
def bracketedLength? (opening closing : Char) (depth : Nat) : List Char → Option Nat
  | [] => none
  | c :: rest =>
    if c == closing then (bracketedLength? opening closing (depth + 1) rest).map (· + 1)
    else if c == opening then
      if depth ≤ 1 then some 1 else (bracketedLength? opening closing (depth - 1) rest).map (· + 1)
    else (bracketedLength? opening closing depth rest).map (· + 1)

/-- How many characters the operand at the front of a reversed text has. -/
def operandLength? (reversed : List Char) : Option Nat :=
  match reversed with
  | [] => none
  | last :: _ =>
    let bracketed :=
      if last == ')' then bracketedLength? '(' ')' 0 reversed
      else if last == ']' then bracketedLength? '[' ']' 0 reversed
      else if isOperandChar last then some 0
      else none
    bracketed.map fun n => n + ((reversed.drop n).takeWhile isOperandChar).length

/-- Moves one negation: the operand at the end of `front` gets the prefix operator, and blanks
between the operand and the marker go away. -/
def negateLast? (front : List Char) : Option (List Char) :=
  let reversed := front.reverse.dropWhile isBlank
  (operandLength? reversed).map fun n =>
    (reversed.drop n).reverse ++ '!' :: (reversed.take n).reverse

theorem length_splitAtMarkerFrom? {place : Quotation} {text front behind : List Char}
    (h : splitAtMarkerFrom? place text = some (front, behind)) :
    text.length = front.length + negationMarker.length + behind.length := by
  have afterWord (word : List Char) : ∀ {text rest : List Char},
      afterWord? word text = some rest → text.length = word.length + rest.length := by
    induction word with
    | nil => intro text rest h; simp_all [afterWord?]
    | cons w word ih =>
      intro text rest h
      cases text with
      | nil => simp [afterWord?] at h
      | cons c text =>
        simp only [afterWord?] at h
        split at h
        · have := ih h
          simp only [List.length_cons]
          omega
        · cases h
  induction text generalizing place front behind with
  | nil => simp [splitAtMarkerFrom?] at h
  | cons c rest ih =>
    simp only [splitAtMarkerFrom?] at h
    split at h
    · next found =>
      have := afterWord negationMarker found
      simp only [Option.some.injEq, Prod.mk.injEq] at h
      obtain ⟨rfl, rfl⟩ := h
      simpa using this
    · simp only [Option.map_eq_some_iff, Prod.mk.injEq, Prod.exists] at h
      obtain ⟨front', behind', found, rfl, rfl⟩ := h
      have := ih found
      simp only [List.length_cons]
      omega

theorem length_negateLast? {front negated : List Char} (h : negateLast? front = some negated) :
    negated.length ≤ front.length + 1 := by
  simp only [negateLast?, Option.map_eq_some_iff] at h
  obtain ⟨n, -, rfl⟩ := h
  have := (List.dropWhile_sublist isBlank (l := front.reverse)).length_le
  simp only [List.length_append, List.length_reverse, List.length_cons, List.length_drop,
    List.length_take] at this ⊢
  omega

/-- Rewrites every trailing negation. A marker without an operand is an error. -/
def rewriteNegation (text : List Char) : Except ExprError (List Char) :=
  match _found : splitAtMarkerFrom? .outside text with
  | none => .ok text
  | some (front, behind) =>
    match _negated : negateLast? front with
    | none => .error .danglingNegation
    | some rewritten => rewriteNegation (rewritten ++ behind)
termination_by text.length
decreasing_by
  have := length_splitAtMarkerFrom? _found
  have := length_negateLast? _negated
  simp only [negationMarker, List.length_cons, List.length_append, List.length_nil] at *
  omega

end BlockCode
