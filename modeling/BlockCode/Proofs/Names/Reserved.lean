/- # Words that are not reserved

Whether a word is reserved is seen from its lower-case form, which consists of letters and
underscores alone. A name that was read has no reserved segment. Neither has the text that the
name was typed as: a full-width form is in no reserved word, so a reserved segment would stand in
the name as well. The spellings of names are not reserved either, because none is accepted that
is, and a number behind it does not make it so.
-/

import BlockCode.Proofs.Expr.Width
import BlockCode.Proofs.Names.CodePoints
import BlockCode.Proofs.Names.Segments

namespace BlockCode

/-- The characters of a text in lower case, as they are compared with reserved words. -/
def lowered (text : String) : List Char :=
  text.toList.map lowerToAscii

theorem toLower_eq_self {c : Char} (h : isAsciiLetter c = false) : c.toLower = c := by
  unfold Char.toLower
  split
  · next hupper =>
    have hA : 'A'.toNat ≤ c.toNat := UInt32.le_iff_toNat_le.mp hupper.1
    have hZ : c.toNat ≤ 'Z'.toNat := UInt32.le_iff_toNat_le.mp hupper.2
    rw [isAsciiLetter, decide_eq_true hA, decide_eq_true hZ, Bool.and_true, Bool.or_true] at h
    cases h
  · rfl

/-- Only a letter and the Kelvin sign have a lower-case form of their own. -/
theorem lowerToAscii_cases (c : Char) :
    lowerToAscii c = c ∨ c = '\u212a' ∨ isAsciiLetter c = true := by
  rw [lowerToAscii]
  split
  · next hkelvin => exact .inr (.inl (eq_of_beq hkelvin))
  · cases hletter : isAsciiLetter c with
    | true => exact .inr (.inr rfl)
    | false => exact .inl (toLower_eq_self hletter)

theorem isBlank_lowerToAscii (c : Char) : isBlank (lowerToAscii c) = isBlank c := by
  rcases lowerToAscii_cases c with heq | rfl | hletter
  · rw [heq]
  · decide
  · exact forall_isAsciiNamePart (P := fun c => isBlank (lowerToAscii c) = isBlank c) (by decide)
      (isAsciiNamePart_of_isAsciiLetter hletter)

theorem trimChars_map {f : Char → Char} (hf : ∀ c, isBlank (f c) = isBlank c) (text : List Char) :
    trimChars (text.map f) = (trimChars text).map f := by
  have hcomp : isBlank ∘ f = isBlank := funext hf
  simp only [trimChars, List.dropWhile_map, hcomp, ← List.map_reverse]

/-- Words with one lower-case form are reserved or not together. -/
theorem isReserved_congr {word word' : String} (h : lowered word = lowered word') :
    isReserved word = isReserved word' := by
  rw [isReserved, isReserved, ← trimChars_map isBlank_lowerToAscii,
    ← trimChars_map isBlank_lowerToAscii]
  exact congrArg (fun chars => reservedWords.contains (String.ofList (trimChars chars)) ||
    generatedNames.contains (String.ofList (trimChars chars))) h

theorem mem_trimChars {text : List Char} {c : Char} (hc : c ∈ text) (hblank : isBlank c = false) :
    c ∈ trimChars text := by
  obtain ⟨before, behind, htext, hbefore, hbehind⟩ := exists_eq_append_trimChars text
  rw [htext, List.mem_append, List.mem_append] at hc
  rcases hc with (hc | hc) | hc
  · rw [hbefore c hc] at hblank
    cases hblank
  · exact hc
  · rw [hbehind c hc] at hblank
    cases hblank

/-- A reserved word has letters and underscores only. -/
theorem lowerToAscii_of_isReserved {word : String} (h : isReserved word = true) {c : Char}
    (hc : c ∈ word.toList) (hblank : isBlank c = false) :
    isAsciiLetter (lowerToAscii c) = true ∨ lowerToAscii c = '_' := by
  have hwords : ∀ word ∈ reservedWords ++ generatedNames,
      ∀ c ∈ word.toList, isAsciiLetter c = true ∨ c = '_' := by
    decide +kernel
  rw [isReserved, Bool.or_eq_true, List.contains_iff_mem, List.contains_iff_mem,
    ← List.mem_append] at h
  refine hwords _ h _ ?_
  rw [String.toList_ofList]
  exact List.mem_map_of_mem (mem_trimChars hc hblank)

/-- A word with a digit or a dot in it is not reserved. -/
theorem isReserved_eq_false_of_mem {word : String} {c : Char} (hc : c ∈ word.toList)
    (hpart : isAsciiDigit c = true ∨ c = '.') : isReserved word = false := by
  have hdigits : isAsciiDigit c = true →
      isBlank c = false ∧ isAsciiLetter (lowerToAscii c) = false ∧ lowerToAscii c ≠ '_' := by
    intro hdigit
    refine forall_isAsciiNamePart (P := fun c => isAsciiDigit c = true → isBlank c = false ∧
      isAsciiLetter (lowerToAscii c) = false ∧ lowerToAscii c ≠ '_') (by decide) ?_ hdigit
    rw [isAsciiNamePart, hdigit, Bool.or_true]
    rfl
  obtain ⟨hblank, hletter, hscore⟩ :
      isBlank c = false ∧ isAsciiLetter (lowerToAscii c) = false ∧ lowerToAscii c ≠ '_' := by
    rcases hpart with hdigit | rfl
    · exact hdigits hdigit
    · decide
  rw [← Bool.not_eq_true]
  intro hreserved
  rcases lowerToAscii_of_isReserved hreserved hc hblank with h | h
  · rw [hletter] at h
    cases h
  · exact hscore h

/-! ## Segments of names -/

/-- No segment of the name is reserved. -/
def FreeName (name : String) : Prop :=
  ∀ segment ∈ nameSegments name, isReserved segment = false

theorem freeName_of_reservedSegment? {name : String} (h : reservedSegment? name = none) :
    FreeName name := by
  intro segment hsegment
  simpa using List.find?_eq_none.mp h segment hsegment

/-- The first piece of a text stays the first one, where its characters stay as they are. -/
theorem exists_piecesAt_map_eq {separator : Char} {f : Char → Char} (hf : f separator = separator)
    {text piece : List Char} {pieces : List (List Char)}
    (h : piecesAt separator text = piece :: pieces) (hpiece : ∀ c ∈ piece, f c = c) :
    ∃ pieces', piecesAt separator (text.map f) = piece :: pieces' := by
  induction text generalizing piece pieces with
  | nil =>
      obtain ⟨rfl, rfl⟩ := List.cons.inj h
      exact ⟨[], rfl⟩
  | cons c rest ih =>
      rw [piecesAt] at h
      split at h
      · next hc =>
        obtain ⟨rfl, rfl⟩ := List.cons.inj h
        rw [eq_of_beq hc, List.map_cons, hf, piecesAt, if_pos (beq_self_eq_true separator)]
        exact ⟨_, rfl⟩
      · next hc =>
        split at h
        · next hrest => exact absurd hrest (piecesAt_ne_nil separator rest)
        · next first others hrest =>
          obtain ⟨rfl, rfl⟩ := List.cons.inj h
          rw [List.forall_mem_cons] at hpiece
          obtain ⟨pieces', hmap⟩ := ih hrest hpiece.2
          rw [List.map_cons, hpiece.1, piecesAt, if_neg hc, hmap]
          exact ⟨pieces', rfl⟩

/-- So does every further piece. -/
theorem mem_tail_piecesAt_map {separator : Char} {f : Char → Char} (hf : f separator = separator)
    {text piece : List Char} (h : piece ∈ (piecesAt separator text).tail)
    (hpiece : ∀ c ∈ piece, f c = c) : piece ∈ (piecesAt separator (text.map f)).tail := by
  induction text with
  | nil => cases h
  | cons c rest ih =>
      obtain ⟨first, others, hrest⟩ := List.exists_cons_of_ne_nil (piecesAt_ne_nil separator rest)
      obtain ⟨first', others', hrest'⟩ :=
        List.exists_cons_of_ne_nil (piecesAt_ne_nil separator (rest.map f))
      rw [hrest, hrest', List.tail_cons, List.tail_cons] at ih
      rw [List.map_cons]
      by_cases hc : (c == separator) = true
      · rw [piecesAt, if_pos hc, List.tail_cons, hrest, List.mem_cons] at h
        rw [eq_of_beq hc, hf, piecesAt, if_pos (beq_self_eq_true separator), List.tail_cons]
        rcases h with rfl | h
        · obtain ⟨pieces', hmap⟩ := exists_piecesAt_map_eq hf hrest hpiece
          rw [hmap]
          exact .head _
        · rw [hrest']
          exact .tail _ (ih h)
      · rw [piecesAt, if_neg hc, hrest] at h
        rw [piecesAt, hrest']
        split
        · exact .tail _ (ih h)
        · exact ih h

theorem mem_piecesAt_map {separator : Char} {f : Char → Char} (hf : f separator = separator)
    {text piece : List Char} (h : piece ∈ piecesAt separator text) (hpiece : ∀ c ∈ piece, f c = c) :
    piece ∈ piecesAt separator (text.map f) := by
  obtain ⟨first, others, htext⟩ := List.exists_cons_of_ne_nil (piecesAt_ne_nil separator text)
  rw [htext, List.mem_cons] at h
  rcases h with rfl | h
  · obtain ⟨pieces', hmap⟩ := exists_piecesAt_map_eq hf htext hpiece
    rw [hmap]
    exact .head _
  · refine List.mem_of_mem_tail (mem_tail_piecesAt_map hf ?_ hpiece)
    rw [htext]
    exact h

/-- A full-width form is in no reserved word. -/
theorem foldWidth_of_isReserved {word : String} (h : isReserved word = true) {c : Char}
    (hc : c ∈ word.toList) (hblank : isBlank c = false) : foldWidth c = c := by
  rw [foldWidth, if_neg]
  intro hform
  rw [Bool.and_eq_true, decide_eq_true_eq, decide_eq_true_eq] at hform
  have hself : lowerToAscii c = c := by
    rcases lowerToAscii_cases c with heq | rfl | hletter
    · exact heq
    · exact absurd hform (by decide)
    · have hlt := lt_of_isAsciiNamePart (isAsciiNamePart_of_isAsciiLetter hletter)
      omega
  rcases lowerToAscii_of_isReserved h hc hblank with hletter | hscore
  · rw [hself] at hletter
    have hlt := lt_of_isAsciiNamePart (isAsciiNamePart_of_isAsciiLetter hletter)
    omega
  · rw [hself] at hscore
    rw [hscore] at hform
    exact absurd hform (by decide)

/-- Where a name is free, so is the text that it was typed as. -/
theorem freeName_of_map_foldWidth {typed word : String} (hword : IsLexeme .name word)
    (hfree : FreeName word) (h : typed.toList.map foldWidth = word.toList) : FreeName typed := by
  intro segment hsegment
  obtain ⟨piece, hpiece, rfl⟩ := List.mem_map.mp hsegment
  rw [← Bool.not_eq_true]
  intro hreserved
  have hsame : ∀ c ∈ piece, foldWidth c = c := by
    intro c hc
    refine foldWidth_of_isReserved hreserved (by rwa [String.toList_ofList]) ?_
    -- White space would be in the name too, where it cannot be.
    rw [← Bool.not_eq_true]
    intro hblank
    have hmem : c ∈ word.toList := by
      rw [← h, ← foldWidth_of_isBlank hblank]
      exact List.mem_map_of_mem (mem_of_mem_piecesAt hpiece hc)
    rw [hword.isBlank_of_mem c hmem] at hblank
    cases hblank
  have hmem : piece ∈ piecesAt '.' word.toList := by
    rw [← h]
    exact mem_piecesAt_map (by decide) hpiece hsame
  rw [hfree _ (List.mem_map_of_mem hmem)] at hreserved
  cases hreserved

/-! ## Spellings -/

/-- No spelling is reserved. -/
def Spellings.Free (spellings : Spellings) : Prop :=
  ∀ entry ∈ spellings, isReserved entry.2 = false

/-- A written number has a digit. -/
theorem exists_isAsciiDigit_toString (n : Nat) :
    ∃ d ∈ (toString n).toList, isAsciiDigit d = true := by
  have hdigit : ∀ d < 10, isAsciiDigit d.digitChar = true := by
    decide
  rw [show toString n = String.ofList (Nat.toDigits 10 n) from rfl, String.toList_ofList,
    Nat.toDigits_eq_if (by decide)]
  split
  · next hlt => exact ⟨_, .head _, hdigit n hlt⟩
  · exact ⟨_, by simp, hdigit (n % 10) (Nat.mod_lt n (by decide))⟩

/-- A number behind a word does not make it reserved. -/
theorem isReserved_numberedSpelling {spelling : String} (h : isReserved spelling = false)
    (k : Nat) : isReserved (numberedSpelling spelling k) = false := by
  cases k with
  | zero => exact h
  | succ k =>
      obtain ⟨d, hd, hdigit⟩ := exists_isAsciiDigit_toString (k + 2)
      refine isReserved_eq_false_of_mem ?_ (.inl hdigit)
      rw [numberedSpelling, String.toList_append]
      exact List.mem_append_right _ hd

/-- An accepted spelling is not reserved. -/
theorem isReserved_of_spell {speller : Speller} {name spelling : String}
    (h : speller.spell name = .ok spelling) : isReserved spelling = false := by
  rw [Speller.spell] at h
  split at h
  · cases h
  · split at h
    · next hspelling =>
      cases h
      rw [isSpelling, isVariableName, Bool.and_eq_true, Bool.and_eq_true] at hspelling
      simpa using hspelling.2.2
    · cases h

namespace SpellingSession

variable {P : String → Prop} {speller : Speller}

/-- What holds of every spelling that is accepted and of those that are known goes on holding when a
name is resolved. -/
theorem resolve_forall (hspell : ∀ name spelling, speller.spell name = .ok spelling → P spelling)
    {session session' : SpellingSession} (hknown : ∀ entry ∈ session.known, P entry.2)
    {name spelling : String}
    (h : session.resolve speller name = (.ok spelling, session')) :
    P spelling ∧ ∀ entry ∈ session'.known, P entry.2 := by
  rw [resolve] at h
  split at h
  · next hget =>
    cases h
    exact ⟨Spellings.spelling?_of_forall hknown hget, hknown⟩
  · split at h
    · next spelling hspelling =>
      cases h
      refine ⟨hspell name spelling hspelling, fun entry hentry => ?_⟩
      rw [insert, List.mem_append, List.mem_filter, List.mem_singleton] at hentry
      rcases hentry with ⟨hentry, -⟩ | rfl
      · exact hknown entry hentry
      · exact hspell name spelling hspelling
    · cases h

/-- If numbers keep it too, it holds of all spellings that are given. -/
theorem resolveAll_forall (hspell : ∀ name spelling, speller.spell name = .ok spelling → P spelling)
    (hnumbered : ∀ spelling k, P spelling → P (numberedSpelling spelling k))
    {session : SpellingSession} (hknown : ∀ entry ∈ session.known, P entry.2)
    {taken names : List String} {spellings : Spellings}
    (h : (session.resolveAll speller taken names).1 = .ok spellings) :
    ∀ entry ∈ spellings, P entry.2 := by
  induction names generalizing session taken spellings with
  | nil =>
      cases h
      simp
  | cons name names ih =>
      rw [resolveAll] at h
      split at h
      · cases h
      · next spelling session' hresolve =>
        obtain ⟨hspelling, hknown'⟩ := resolve_forall hspell hknown hresolve
        obtain ⟨rest, hrest, rfl⟩ := map_eq_ok_iff.mp h
        rw [List.forall_mem_cons]
        exact ⟨freshSpelling_keeps hnumbered hspelling, ih hknown' hrest⟩

end SpellingSession

/-- The spellings of a program are free, whoever proposes them. -/
theorem free_of_resolveProgram {session : SpellingSession} (hknown : session.known.Free)
    {speller : Speller} {program : Block} {spellings : Spellings}
    (h : (session.resolveProgram speller program).1 = .ok spellings) : spellings.Free :=
  SpellingSession.resolveAll_forall (fun _ _ => isReserved_of_spell)
    (fun _ k hspelling => isReserved_numberedSpelling hspelling k) hknown h

end BlockCode
