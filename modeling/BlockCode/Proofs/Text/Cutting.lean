/- # Texts cut at a separator

The pieces between the separators of a text make up the text again, with the separators between
them. No piece has a separator, and there is one piece more than there are separators. A property of
the characters of a text is decided along the text.
-/

import BlockCode.Text.Basic

namespace BlockCode

/-- Whether all characters of a text have a property is found by going through the text, and not
through all characters that there are. -/
instance (priority := 2000) decidableForallMemText (p : Char → Prop) [DecidablePred p]
    (text : List Char) : Decidable (∀ c ∈ text, p c) :=
  List.decidableBAll p text

/-- So is whether one of them has it. -/
instance (priority := 2000) decidableExistsMemText (p : Char → Prop) [DecidablePred p]
    (text : List Char) : Decidable (∃ c ∈ text, p c) :=
  List.decidableBEx p text

theorem length_piecesAt (separator : Char) (text : List Char) :
    (piecesAt separator text).length = text.count separator + 1 := by
  induction text with
  | nil => rfl
  | cons c text ih =>
      rw [piecesAt, List.count_cons]
      split
      · rw [List.length_cons, ih]
      · cases hpieces : piecesAt separator text with
        | nil =>
            rw [hpieces] at ih
            cases ih
        | cons piece pieces =>
            rw [hpieces] at ih
            exact ih

/-- Nothing stands between two commas next to each other. -/
example : piecesAt ',' "a,,b".toList = ["a".toList, [], "b".toList] := by cbv

theorem piecesAt_ne_nil (separator : Char) (text : List Char) : piecesAt separator text ≠ [] := by
  cases text with
  | nil => exact List.cons_ne_nil _ _
  | cons c rest =>
      rw [piecesAt]
      split
      · exact List.cons_ne_nil _ _
      · split
        · exact List.cons_ne_nil _ _
        · exact List.cons_ne_nil _ _

/-- The pieces with the separator between them are the text again. -/
theorem intercalate_piecesAt (separator : Char) (text : List Char) :
    [separator].intercalate (piecesAt separator text) = text := by
  induction text with
  | nil => rfl
  | cons c rest ih =>
      rw [piecesAt]
      by_cases hc : (c == separator) = true
      · rw [if_pos hc, List.intercalate_cons_of_ne_nil (piecesAt_ne_nil separator rest), ih,
          eq_of_beq hc]
        rfl
      · rw [if_neg hc]
        cases hpieces : piecesAt separator rest with
        | nil => exact absurd hpieces (piecesAt_ne_nil separator rest)
        | cons piece pieces =>
            rw [hpieces] at ih
            rw [← ih]
            cases pieces with
            | nil => simp
            | cons next pieces => simp

theorem piecesAt_eq_singleton {separator : Char} {text : List Char} (h : separator ∉ text) :
    piecesAt separator text = [text] := by
  induction text with
  | nil => rfl
  | cons c rest ih =>
      rw [List.mem_cons, not_or] at h
      rw [piecesAt, if_neg (by simpa using Ne.symm h.1), ih h.2]

/-- A piece in front of a separator is the first one. -/
theorem piecesAt_append {separator : Char} {piece : List Char} (h : separator ∉ piece)
    (rest : List Char) :
    piecesAt separator (piece ++ separator :: rest) = piece :: piecesAt separator rest := by
  induction piece with
  | nil => rw [List.nil_append, piecesAt, if_pos (beq_self_eq_true separator)]
  | cons c piece ih =>
      rw [List.mem_cons, not_or] at h
      rw [List.cons_append, piecesAt, if_neg (by simpa using Ne.symm h.1), ih h.2]

/-- The characters of a piece are in the text. -/
theorem mem_of_mem_piecesAt {separator c : Char} {text piece : List Char}
    (hpiece : piece ∈ piecesAt separator text) (hc : c ∈ piece) : c ∈ text := by
  induction text generalizing piece with
  | nil =>
      rw [List.mem_singleton.mp hpiece] at hc
      cases hc
  | cons d rest ih =>
      rw [piecesAt] at hpiece
      split at hpiece
      · rcases List.mem_cons.mp hpiece with rfl | hpiece
        · cases hc
        · exact .tail _ (ih hpiece hc)
      · split at hpiece
        · rw [List.mem_singleton.mp hpiece] at hc
          rw [List.mem_singleton.mp hc]
          exact .head _
        · rename_i first pieces hpieces
          rcases List.mem_cons.mp hpiece with rfl | hpiece
          · rcases List.mem_cons.mp hc with rfl | hc
            · exact .head _
            · exact .tail _ (ih (by rw [hpieces]; exact .head _) hc)
          · exact .tail _ (ih (by rw [hpieces]; exact .tail _ hpiece) hc)

/-- No piece has a separator. -/
theorem separator_notMem_of_mem_piecesAt {separator : Char} {text piece : List Char}
    (h : piece ∈ piecesAt separator text) : separator ∉ piece := by
  induction text generalizing piece with
  | nil =>
      rw [List.mem_singleton.mp h]
      exact List.not_mem_nil
  | cons c rest ih =>
      rw [piecesAt] at h
      split at h
      · rcases List.mem_cons.mp h with rfl | h
        · exact List.not_mem_nil
        · exact ih h
      · next hc =>
        have hne : separator ≠ c := fun heq => hc (by rw [heq, beq_self_eq_true])
        split at h
        · rw [List.mem_singleton.mp h, List.mem_singleton]
          exact hne
        · next first pieces hpieces =>
          rcases List.mem_cons.mp h with rfl | h
          · rw [List.mem_cons, not_or]
            exact ⟨hne, ih (by rw [hpieces]; exact .head _)⟩
          · exact ih (by rw [hpieces]; exact .tail _ h)

end BlockCode
