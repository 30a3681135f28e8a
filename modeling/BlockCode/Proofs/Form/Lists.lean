/- # Lists in forms

A list field of a form is folded and cut at its commas, and its items, without the white space
around them, are joined to a list slot. When the slot is counted it is folded once more. A text
that has been folded has no glyph outside of strings that folding would make a comma, and white
space around an item decides nothing about what is outside of strings. So the slot is counted to
be as long as the field.
-/

import BlockCode.Proofs.Expr.Commas
import BlockCode.Proofs.Form.Entered
import BlockCode.Proofs.Form.Plain

namespace BlockCode

/-! ## Commas of folded texts -/

/-- The place after a character where folding goes on. -/
def Quotation.folded : Quotation → Char → Quotation
  | .outside, c => (foldOutside c).2
  | .inside, c => (foldInside c).2
  | .escaped, _ => .inside

/-- The place after a whole text. -/
def Quotation.foldedThrough (place : Quotation) (text : List Char) : Quotation :=
  text.foldl Quotation.folded place

/-- Whether no glyph of a text would be folded to a comma, where the text starts at the place. -/
def keepsCommas (place : Quotation) : List Char → Bool
  | [] => true
  | c :: rest =>
    !(place == .outside && (c == '、' || c == '\uff0c')) && keepsCommas (place.folded c) rest

theorem keepsCommas_append {place : Quotation} {text text' : List Char} :
    keepsCommas place (text ++ text') = true ↔
      keepsCommas place text = true ∧ keepsCommas (place.foldedThrough text) text' = true := by
  induction text generalizing place with
  | nil => simp [keepsCommas, Quotation.foldedThrough]
  | cons c text ih =>
      rw [List.cons_append, keepsCommas, keepsCommas, Bool.and_eq_true, Bool.and_eq_true, ih,
        and_assoc]
      rfl

/-- What becomes of a character outside of strings leads where the character leads, and keeps its
commas. -/
theorem keepsCommas_foldOutside (c : Char) :
    keepsCommas .outside (foldOutside c).1 = true ∧
      Quotation.outside.foldedThrough (foldOutside c).1 = (foldOutside c).2 := by
  rw [foldOutside]
  split
  · decide
  · next hcorner =>
    split
    · next replacement hglyph =>
      have hreplacements : ∀ entry ∈ operatorGlyphs,
          keepsCommas .outside entry.2.toList = true ∧
            Quotation.outside.foldedThrough entry.2.toList = .outside := by
        decide
      exact hreplacements _ (mem_operatorGlyphs hglyph)
    · next hglyph =>
      split
      · next hquote =>
        rcases eq_quote_of_foldWidth_eq (eq_of_beq hquote) with rfl | rfl <;> decide
      · next hquote =>
        have hcomma : foldWidth c ≠ '、' := fun hc => by
          rw [hc] at hglyph
          exact absurd hglyph (by decide)
        have hwide : foldWidth c ≠ '\uff0c' := fun hc => by
          obtain rfl := eq_of_foldWidth_eq hc (by decide)
          exact absurd hc (by decide)
        have hcorner' : ¬isCornerBracket (foldWidth c) = true := fun hc => by
          have hsame : foldWidth c = '「' ∨ foldWidth c = '」' := by
            simpa [isCornerBracket] using hc
          refine hcorner ?_
          rcases hsame with hsame | hsame
          · rw [eq_of_foldWidth_eq hsame (by decide)]
            decide
          · rw [eq_of_foldWidth_eq hsame (by decide)]
            decide
        have hplain : foldOutside (foldWidth c) = ([foldWidth c], .outside) := by
          rw [foldOutside, if_neg hcorner', foldWidth_foldWidth, hglyph]
          exact if_neg hquote
        refine ⟨?_, ?_⟩
        · simp [keepsCommas, hcomma, hwide]
        · exact congrArg Prod.snd hplain

theorem keepsCommas_foldInside (c : Char) :
    keepsCommas .inside (foldInside c).1 = true ∧
      Quotation.inside.foldedThrough (foldInside c).1 = (foldInside c).2 := by
  have hsame : Quotation.inside.folded c = (foldInside c).2 := rfl
  rw [foldInside] at hsame ⊢
  split
  · next hslash =>
    rw [if_pos hslash] at hsame
    exact ⟨rfl, hsame⟩
  · next hslash =>
    rw [if_neg hslash] at hsame
    split
    · decide
    · next hquote =>
      rw [if_neg hquote] at hsame
      exact ⟨rfl, hsame⟩

/-- A text that has been folded keeps its commas. -/
theorem keepsCommas_foldGlyphsFrom (place : Quotation) (text : List Char) :
    keepsCommas place (foldGlyphsFrom place text) = true := by
  fun_induction foldGlyphsFrom place text with
  | case1 => rfl
  | case2 c rest ih =>
      rw [keepsCommas]
      exact ih
  | case3 c rest folded next hfolded ih =>
      obtain ⟨hkeeps, hleads⟩ := keepsCommas_foldInside c
      rw [hfolded] at hkeeps hleads
      exact keepsCommas_append.mpr ⟨hkeeps, hleads ▸ ih⟩
  | case4 c rest symbol beyond hconnective ih =>
      have hsymbol : keepsCommas .outside symbol = true ∧
          Quotation.outside.foldedThrough symbol = .outside := by
        rcases mem_of_connective? hconnective with rfl | rfl <;> decide
      refine keepsCommas_append.mpr ⟨hsymbol.1, ?_⟩
      rw [hsymbol.2]
      exact ih
  | case5 c rest hconnective folded next hfolded ih =>
      obtain ⟨hkeeps, hleads⟩ := keepsCommas_foldOutside c
      rw [hfolded] at hkeeps hleads
      exact keepsCommas_append.mpr ⟨hkeeps, hleads ▸ ih⟩

/-- Of the glyphs only one becomes a comma. -/
theorem eq_of_comma_mem_operatorGlyph? {c : Char} {replacement : String}
    (h : operatorGlyph? c = some replacement) (hmem : ',' ∈ replacement.toList) : c = '、' := by
  have hcomma : ∀ entry ∈ operatorGlyphs, ',' ∈ entry.2.toList → entry.1 = '、' := by decide
  exact hcomma _ (mem_operatorGlyphs h) hmem

/-- A character becomes as many commas as it is, unless it is a glyph that becomes one. -/
theorem count_comma_foldOutside {c : Char} (h : c ≠ '、' ∧ c ≠ '\uff0c') :
    (foldOutside c).1.count ',' = [c].count ',' := by
  by_cases hc : c = ','
  · subst hc
    rfl
  · have hfolded : foldWidth c ≠ ',' := fun hcomma => (eq_or_eq_of_foldWidth_eq hcomma).elim hc h.2
    have hnone : ',' ∉ (foldOutside c).1 := by
      rw [foldOutside]
      split
      · decide
      · split
        · next replacement hglyph =>
          intro hmem
          exact h.1 (eq_of_foldWidth_eq (eq_of_comma_mem_operatorGlyph? hglyph hmem) (by decide))
        · split
          · exact fun hmem => hc (List.mem_singleton.mp hmem).symm
          · exact fun hmem => hfolded (List.mem_singleton.mp hmem).symm
    rw [List.count_eq_zero.mpr hnone, List.count_singleton, if_neg (by simpa using hc)]

theorem count_comma_foldInside (c : Char) : (foldInside c).1.count ',' = [c].count ',' := by
  rw [foldInside]
  split
  · rfl
  · split
    · next hquote =>
      have hc : c ≠ ',' := by
        rintro rfl
        exact absurd hquote (by decide)
      rw [List.count_singleton, List.count_singleton, if_neg (by decide),
        if_neg (by simpa using hc)]
    · rfl

/-- A text that keeps its commas has as many when it is folded. -/
theorem count_comma_foldGlyphsFrom {place : Quotation} {text : List Char}
    (h : keepsCommas place text = true) :
    (foldGlyphsFrom place text).count ',' = text.count ',' := by
  fun_induction foldGlyphsFrom place text with
  | case1 => rfl
  | case2 c rest ih =>
      rw [keepsCommas] at h
      rw [List.count_cons, List.count_cons, ih h]
  | case3 c rest folded next hfolded ih =>
      have hcount := count_comma_foldInside c
      have hnext : Quotation.inside.folded c = next := congrArg Prod.snd hfolded
      rw [keepsCommas, hnext] at h
      rw [hfolded] at hcount
      rw [List.count_append, hcount, ih h, ← List.count_append, List.singleton_append]
  | case4 c rest symbol beyond hconnective ih =>
      obtain ⟨word, hword, -, htext⟩ := exists_eq_append_of_connective? hconnective
      have hwords : ∀ word ∈ ["かつ".toList, "または".toList],
          word.count ',' = 0 ∧ Quotation.outside.foldedThrough word = .outside := by
        decide
      obtain ⟨hnone, hleads⟩ := hwords word hword
      have hsymbol : symbol.count ',' = 0 := by
        rcases mem_of_connective? hconnective with rfl | rfl <;> decide
      rw [htext, keepsCommas_append, hleads] at h
      rw [htext, List.count_append, List.count_append, ih h.2, hnone, hsymbol]
  | case5 c rest hconnective folded next hfolded ih =>
      rw [keepsCommas, Bool.and_eq_true] at h
      have hc : c ≠ '、' ∧ c ≠ '\uff0c' := by
        simpa using h.1
      have hcount := count_comma_foldOutside hc
      have hnext : Quotation.outside.folded c = next := congrArg Prod.snd hfolded
      rw [hnext] at h
      rw [hfolded] at hcount
      rw [List.count_append, hcount, ih h.2, ← List.count_append, List.singleton_append]

/-! ## Items cut and joined -/

/-- The place behind white space or a comma: an escape ends there. -/
def Quotation.settled : Quotation → Quotation
  | .escaped => .inside
  | place => place

theorem Quotation.settled_settled (place : Quotation) : place.settled.settled = place.settled := by
  cases place <;> rfl

/-- White space and commas are passed alike. -/
theorem Quotation.folded_eq_settled {c : Char} (hc : isBlank c = true ∨ c = ',')
    (place : Quotation) : place.folded c = place.settled := by
  rcases hc with hblank | rfl
  · have hall : ∀ n ∈ blankClass.codes, ∀ place ∈ [Quotation.outside, .inside, .escaped],
        place.folded (Char.ofNat n) = place.settled := by
      decide
    have hplace : place ∈ [Quotation.outside, .inside, .escaped] := by
      cases place <;> decide
    exact forall_isBlank (P := fun c => ∀ place ∈ [Quotation.outside, .inside, .escaped],
      place.folded c = place.settled) hall hblank place hplace
  · cases place <;> rfl

/-- White space settles the place, if there is any. -/
theorem Quotation.settled_foldedThrough {blanks : List Char} (h : ∀ c ∈ blanks, isBlank c = true)
    (place : Quotation) : (place.foldedThrough blanks).settled = place.settled := by
  induction blanks generalizing place with
  | nil => rfl
  | cons c blanks ih =>
      rw [List.forall_mem_cons] at h
      change ((place.folded c).foldedThrough blanks).settled = _
      rw [ih h.2, folded_eq_settled (.inl h.1), settled_settled]

theorem Quotation.foldedThrough_eq {blanks : List Char} (h : ∀ c ∈ blanks, isBlank c = true)
    {place : Quotation} (hplace : place.settled = place) : place.foldedThrough blanks = place := by
  induction blanks with
  | nil => rfl
  | cons c blanks ih =>
      rw [List.forall_mem_cons] at h
      change (place.folded c).foldedThrough blanks = place
      rw [folded_eq_settled (.inl h.1), hplace, ih h.2]

/-- Without the white space around it, a text keeps its commas and leads where it leads. -/
theorem keepsCommas_trimChars {place : Quotation} (hplace : place.settled = place)
    {text : List Char} (h : keepsCommas place text = true) :
    keepsCommas place (trimChars text) = true ∧
      (place.foldedThrough (trimChars text)).settled = (place.foldedThrough text).settled := by
  obtain ⟨before, behind, htext, hbefore, hbehind⟩ := exists_eq_append_trimChars text
  generalize trimChars text = inner at htext ⊢
  subst htext
  rw [keepsCommas_append, keepsCommas_append, Quotation.foldedThrough_eq hbefore hplace] at h
  refine ⟨h.1.2, ?_⟩
  rw [Quotation.foldedThrough, Quotation.foldedThrough, List.foldl_append, List.foldl_append]
  change _ = (Quotation.foldedThrough (Quotation.foldedThrough (place.foldedThrough before) inner)
    behind).settled
  rw [Quotation.settled_foldedThrough hbehind, Quotation.foldedThrough_eq hbefore hplace]
  rfl

/-- Items cut from a text that keeps its commas are joined to one that does. -/
theorem keepsCommas_intercalate {place : Quotation} (hplace : place.settled = place)
    {pieces : List (List Char)} (h : keepsCommas place ([','].intercalate pieces) = true) :
    keepsCommas place
      (", ".intercalate (pieces.map fun piece => trim (String.ofList piece))).toList = true := by
  induction pieces generalizing place with
  | nil =>
      rw [List.map_nil, String.intercalate_nil]
      rfl
  | cons piece pieces ih =>
      have htrim : (trim (String.ofList piece)).toList = trimChars piece := by
        rw [trim, String.toList_ofList, String.toList_ofList]
      cases pieces with
      | nil =>
          rw [List.intercalate_singleton] at h
          rw [List.map_singleton, String.intercalate_singleton, htrim]
          exact (keepsCommas_trimChars hplace h).1
      | cons next pieces =>
          rw [List.intercalate_cons_cons, List.append_assoc, keepsCommas_append,
            List.singleton_append, keepsCommas, Bool.and_eq_true,
            Quotation.folded_eq_settled (.inr rfl)] at h
          obtain ⟨hpiece, -, hrest⟩ := h
          obtain ⟨hkeeps, hleads⟩ := keepsCommas_trimChars hplace hpiece
          rw [List.map_cons, List.map_cons, String.intercalate_cons_cons, String.toList_append,
            String.toList_append, htrim, List.append_assoc, keepsCommas_append]
          refine ⟨hkeeps, ?_⟩
          rw [show ", ".toList = [',', ' '] from rfl, List.cons_append, List.singleton_append,
            keepsCommas, keepsCommas, Quotation.folded_eq_settled (.inr rfl),
            Quotation.folded_eq_settled (.inl (by decide)), Quotation.settled_settled, hleads]
          simpa using ih (Quotation.settled_settled _) hrest

/-- As many commas stand in a list as between its items, where no item has one. -/
theorem count_comma_intercalate {texts : List String} (h : ∀ text ∈ texts, ',' ∉ text.toList) :
    (", ".intercalate texts).toList.count ',' = texts.length - 1 := by
  induction texts with
  | nil => rfl
  | cons text texts ih =>
      rw [List.forall_mem_cons] at h
      have hnone := List.count_eq_zero.mpr h.1
      cases texts with
      | nil => rw [String.intercalate_singleton, hnone, List.length_singleton]
      | cons next texts =>
          rw [String.intercalate_cons_cons, String.toList_append, String.toList_append,
            List.count_append, List.count_append, hnone, ih h.2]
          exact Nat.add_comm _ _

/-! ## The length of a list slot -/

/-- What becomes white space is white space. -/
theorem isBlank_of_foldOutside {c : Char} (h : ∀ d ∈ (foldOutside c).1, isBlank d = true) :
    isBlank c = true := by
  rw [foldOutside] at h
  split at h
  · exact absurd (h '"' (.head _)) (by decide)
  · split at h
    · next replacement hglyph =>
      rcases operatorGlyph?_cases hglyph with ⟨hspace, -⟩ | ⟨d, hd, hforeign⟩
      · rw [eq_of_foldWidth_eq hspace (by decide)]
        decide
      · have hreplacements : ∀ entry ∈ operatorGlyphs,
            ∀ d ∈ entry.2.toList, isForeign d = true → isBlank d = false := by
          decide
        have hmem := List.mem_of_mem_head? hd
        have hblank := hreplacements _ (mem_operatorGlyphs hglyph) d hmem hforeign
        rw [h d hmem] at hblank
        cases hblank
    · split at h
      · exact h c (.head _)
      · have hfolded := h _ (.head _)
        rwa [eq_of_foldWidth_eq rfl (code_of_isBlank hfolded)]

/-- A text that does not start with white space has more than that when it is folded. -/
theorem exists_isBlank_eq_false_of_mem_foldGlyphs {c : Char} (hc : isBlank c = false)
    (rest : List Char) : ∃ d ∈ foldGlyphs (c :: rest), isBlank d = false := by
  rw [foldGlyphs, foldGlyphsFrom]
  dsimp only
  cases hconnective : connective? (c :: rest) with
  | some found =>
      obtain ⟨symbol, beyond⟩ := found
      rcases mem_of_connective? hconnective with rfl | rfl
      · exact ⟨'&', by simp, by decide⟩
      · exact ⟨'|', by simp, by decide⟩
  | none =>
      by_contra hall
      simp only [not_exists, not_and, Bool.not_eq_false] at hall
      have hblank := isBlank_of_foldOutside fun d hd => hall d (List.mem_append_left _ hd)
      rw [hc] at hblank
      cases hblank

/-- A list whose first item is trimmed and not blank is not blank. -/
theorem not_isEmpty_foldGlyphs_intercalate {text : String} {texts : List String}
    (h : trim text ≠ "") :
    ¬(trimChars (foldGlyphs (", ".intercalate (trim text :: texts)).toList)).isEmpty = true := by
  rw [isEmpty_trimChars_iff]
  intro hall
  obtain ⟨c, rest, htrim⟩ := List.exists_cons_of_ne_nil (mt String.toList_eq_nil_iff.mp h)
  have hblank : isBlank c = false := by
    refine @isBlank_head_trimChars text.toList c ?_
    rw [trim, String.toList_ofList] at htrim
    rw [htrim]
    rfl
  obtain ⟨behind, hlist⟩ : ∃ behind, (", ".intercalate (trim text :: texts)).toList =
      c :: behind := by
    cases texts with
    | nil => exact ⟨rest, by rw [String.intercalate_singleton, htrim]⟩
    | cons next texts =>
        rw [String.intercalate_cons_cons, String.toList_append, String.toList_append, htrim]
        exact ⟨_, rfl⟩
  rw [hlist] at hall
  obtain ⟨d, hd, hfilled⟩ := exists_isBlank_eq_false_of_mem_foldGlyphs hblank behind
  rw [hall d hd] at hfilled
  cases hfilled

/-- The pieces of a folded text, each trimmed, are joined to a list that is counted right, where
none of them is blank. -/
theorem listLength_intercalate_piecesAt {text : List Char}
    (hkeeps : keepsCommas .outside text = true)
    (h : ∀ piece ∈ piecesAt ',' text, trim (String.ofList piece) ≠ "") :
    listLength
        (", ".intercalate ((piecesAt ',' text).map fun piece => trim (String.ofList piece))) =
      (piecesAt ',' text).length := by
  have hcommas : ∀ item ∈ (piecesAt ',' text).map (fun piece => trim (String.ofList piece)),
      ',' ∉ item.toList := by
    rw [List.forall_mem_map]
    intro piece hpiece hmem
    rw [trim, String.toList_ofList, String.toList_ofList] at hmem
    obtain ⟨before, behind, htext, -⟩ := exists_eq_append_trimChars piece
    refine separator_notMem_of_mem_piecesAt hpiece ?_
    rw [htext]
    exact List.mem_append_left _ (List.mem_append_right _ hmem)
  rw [← intercalate_piecesAt ',' text] at hkeeps
  have hcount := count_comma_foldGlyphsFrom (keepsCommas_intercalate rfl hkeeps)
  rw [count_comma_intercalate hcommas, List.length_map] at hcount
  obtain ⟨first, pieces, hpieces⟩ := List.exists_cons_of_ne_nil (piecesAt_ne_nil ',' text)
  rw [hpieces, List.map_cons] at hcount ⊢
  rw [hpieces] at h
  rw [listLength, if_neg (not_isEmpty_foldGlyphs_intercalate (h first (.head _))), length_piecesAt,
    foldGlyphs, hcount, List.length_cons]
  rfl

namespace Form

/-- The list slot is as long as the list in the field, where no item is blank. -/
theorem listLength_listItems {form : Form} {field : StatementField}
    (h : ∀ item ∈ form.listItems field, item ≠ "") :
    listLength (", ".intercalate (form.listItems field)) = (form.listItems field).length := by
  cases hfield : form.field? field with
  | none =>
      rw [listItems, hfield, String.intercalate_nil, listLength, show "".toList = [] from rfl,
        foldGlyphs_nil]
      rfl
  | some text =>
      have hitems : form.listItems field =
          (piecesAt ',' (foldGlyphs text.toList)).map fun piece => trim (String.ofList piece) := by
        rw [listItems, hfield]
        dsimp only
        rw [stringPiecesAt, List.map_map, foldGlyphsText, String.toList_ofList]
        rfl
      rw [hitems, List.forall_mem_map] at h
      rw [hitems, List.length_map]
      exact listLength_intercalate_piecesAt (keepsCommas_foldGlyphsFrom .outside text.toList) h

end Form

end BlockCode
