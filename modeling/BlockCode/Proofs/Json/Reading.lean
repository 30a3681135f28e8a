/- # Reading what was laid out

The layout of a value reads back as the value. A string literal comes back character by character:
an escape is undone by the reader, and what is not escaped stands for itself. Around that, the
reader skips the line breaks and the blanks that the layout puts in.

Numbers are left out, since nothing that is saved holds one.
-/

import BlockCode.Json.Reader
import BlockCode.Proofs.Outcome

namespace BlockCode

namespace Json

section Literals

/-- A control character is written with four digits that name its code point. -/
theorem fourHexDigits_of_lt {code : Nat} (h : code < 0x20) :
    ∃ a b c d, fourHexDigits code = [a, b, c, d] ∧
      (∀ digit ∈ [a, b, c, d], digit ≠ '"' ∧ digit ≠ '\\' ∧ ¬ digit.toNat < 0x20) ∧
      hexValue? a = some 0 ∧ hexValue? b = some 0 ∧ ∃ high low,
        hexValue? c = some high ∧ hexValue? d = some low ∧ 16 * high + low = code := by
  have hall : ∀ code < 0x20, ∃ high < 2, ∃ low < 16,
      fourHexDigits code = ['0', '0', Nat.digitChar high, Nat.digitChar low] ∧
        16 * high + low = code := by
    decide +kernel
  have hdigits : ∀ value < 16, Nat.digitChar value ≠ '"' ∧ Nat.digitChar value ≠ '\\' ∧
      ¬ (Nat.digitChar value).toNat < 0x20 ∧ hexValue? (Nat.digitChar value) = some value := by
    decide +kernel
  obtain ⟨high, hhigh, low, hlow, hfour, hcode⟩ := hall code h
  have hzero := hdigits 0 (by decide)
  have hfirst := hdigits high (by omega)
  have hsecond := hdigits low hlow
  refine ⟨_, _, _, _, hfour, ?_, rfl, rfl, high, low, hfirst.2.2.2, hsecond.2.2.2, hcode⟩
  simp only [List.forall_mem_cons, List.not_mem_nil, false_implies, implies_true, and_true]
  exact ⟨by decide, by decide, ⟨hfirst.1, hfirst.2.1, hfirst.2.2.1⟩,
    hsecond.1, hsecond.2.1, hsecond.2.2.1⟩

/-- How a character stands in a string literal. -/
inductive Quotes (c : Char) : List Char → Prop
  | plain (hquote : c ≠ '"') (hbackslash : c ≠ '\\') (hcontrol : ¬ c.toNat < 0x20) : Quotes c [c]
  | short {letter : Char} (hletter : letter ≠ 'u') (h : shortEscape? letter = some c) :
    Quotes c ['\\', letter]
  | control (h : c.toNat < 0x20) : Quotes c ('\\' :: 'u' :: fourHexDigits c.toNat)

theorem quotes_quotedChar (c : Char) : Quotes c (quotedChar c) := by
  rw [quotedChar]
  split
  · rename_i h
    rw [Bool.or_eq_true, beq_iff_eq, beq_iff_eq] at h
    rcases h with rfl | rfl
    · exact .short (by decide) rfl
    · exact .short (by decide) rfl
  · rename_i hplain
    rw [Bool.not_eq_true, Bool.or_eq_false_iff, beq_eq_false_iff_ne, beq_eq_false_iff_ne] at hplain
    repeat' split
    all_goals simp_all only [beq_iff_eq]
    · exact .short (by decide) rfl
    · exact .short (by decide) rfl
    · exact .short (by decide) rfl
    · exact .short (by decide) rfl
    · exact .short (by decide) rfl
    · exact .control (by assumption)
    · exact .plain hplain.1 hplain.2 (by assumption)

/-- A character that is not escaped is taken as it is. -/
theorem rawString?_cons {c : Char} (hquote : c ≠ '"') (hbackslash : c ≠ '\\')
    (hcontrol : ¬ c.toNat < 0x20) (rest : List Char) :
    rawString? (c :: rest) = (rawString? rest).map (c :: ·) := by
  rw [rawString?.eq_def]
  simp [hquote, hbackslash, hcontrol]

/-- A literal ends at its closing quote, and no quote in the text closes it. -/
theorem rawString?_quoted (text rest : List Char) :
    rawString? (text.flatMap quotedChar ++ '"' :: rest) = some (text.flatMap quotedChar) := by
  induction text with
  | nil =>
      rw [List.flatMap_nil, List.nil_append, rawString?.eq_def]
      rfl
  | cons c text ih =>
      rw [List.flatMap_cons, List.append_assoc]
      generalize hquoted : quotedChar c = quoted
      have hquotes := quotes_quotedChar c
      rw [hquoted] at hquotes
      cases hquotes with
      | plain hquote hbackslash hcontrol => simp [rawString?_cons, hquote, hbackslash, hcontrol, ih]
      | short => simp [rawString?, ih]
      | control hcontrol =>
          obtain ⟨a, b, c', d, hfour, hdigits, -⟩ := fourHexDigits_of_lt hcontrol
          simp only [List.forall_mem_cons, List.not_mem_nil, false_implies, implies_true,
            and_true] at hdigits
          simp [rawString?, rawString?_cons, hfour, hdigits, ih]

/-- The escapes of a literal name the code points of the text. -/
theorem codeUnits?_quoted (text : List Char) :
    codeUnits? (text.flatMap quotedChar) = some (text.map Char.toNat) := by
  induction text with
  | nil => rfl
  | cons c text ih =>
      rw [List.flatMap_cons]
      generalize hquoted : quotedChar c = quoted
      have hquotes := quotes_quotedChar c
      rw [hquoted] at hquotes
      cases hquotes with
      | plain hquote hbackslash hcontrol => simp [codeUnits?, hbackslash, ih]
      | short hletter h => simp [codeUnits?, hletter, h, ih]
      | control hcontrol =>
          obtain ⟨a, b, c', d, hfour, -, ha, hb, high, low, hc, hd, hcode⟩ :=
            fourHexDigits_of_lt hcontrol
          simp [codeUnits?, hfour, ha, hb, hc, hd, hcode, ih]

/-- The code point of a character is no half of one. -/
theorem textOfUnits?_map_toNat (text : List Char) :
    textOfUnits? (text.map Char.toNat) = some text := by
  induction text with
  | nil => rfl
  | cons c text ih =>
      have hvalid : c.toNat < 0xD800 ∨ 0xDFFF < c.toNat ∧ c.toNat < 0x110000 := c.valid
      have hfirst : isFirstHalf c.toNat = false := by
        simp only [isFirstHalf, Bool.and_eq_false_iff, decide_eq_false_iff_not]
        omega
      have hsecond : isSecondHalf c.toNat = false := by
        simp only [isSecondHalf, Bool.and_eq_false_iff, decide_eq_false_iff_not]
        omega
      rw [List.map_cons, textOfUnits?.eq_def]
      simp only [hfirst, hsecond, Bool.false_eq_true, if_false, ih, Char.ofNat_toNat,
        Option.map_some]

/-- A literal denotes the text that it was written for, and what stands behind it is left. -/
theorem readString?_quoted (text rest : List Char) :
    ∃ n, readString? (text.flatMap quotedChar ++ '"' :: rest) =
        some (some (String.ofList text), n) ∧
      (text.flatMap quotedChar ++ '"' :: rest).drop n = rest := by
  refine ⟨(text.flatMap quotedChar).length + 1, ?_, ?_⟩
  · rw [readString?, rawString?_quoted]
    simp only [bind, Option.bind, codeUnits?_quoted, textOfUnits?_map_toNat]
    rfl
  · rw [List.drop_length_add_append]
    rfl

theorem quoted_append (text rest : List Char) :
    quoted text ++ rest = '"' :: (text.flatMap quotedChar ++ '"' :: rest) := by
  simp [quoted]

end Literals

/-- The reader finds the value and leaves the text `rest`. -/
def Found.Gives {α : Type} {n : Nat} (r : Found α n) (a : α) (rest : List Char) : Prop :=
  ∃ h : rest.length < n, r = some ⟨(a, rest), h⟩

section Readers

variable {text rest rest₁ rest₂ rest₃ : List Char} {c : Char}

@[simp]
theorem skipGap_cons_of_isGap (h : isGap c = true) (text : List Char) :
    skipGap (c :: text) = skipGap text :=
  List.dropWhile_cons_of_pos h

theorem skipGap_cons_of_not_isGap (h : isGap c = false) (text : List Char) :
    skipGap (c :: text) = c :: text :=
  List.dropWhile_cons_of_neg (by simp [h])

/-- A line break and the blanks behind it are skipped. -/
@[simp]
theorem skipGap_lineBreak (indent : Nat) (text : List Char) :
    skipGap (lineBreak indent ++ text) = skipGap text := by
  rw [lineBreak, List.cons_append, skipGap_cons_of_isGap rfl]
  induction indent with
  | zero => rfl
  | succ indent ih =>
      rw [List.replicate_succ, List.cons_append, skipGap_cons_of_isGap rfl, ih]

theorem length_lt_of_skipGap_eq (h : skipGap text = c :: rest) : rest.length < text.length := by
  have hle := length_skipGap_le text
  rw [h, List.length_cons] at hle
  omega

/-- A mark is found where it is the next character that counts. -/
theorem behindMark?_eq_some {mark : Char} (h : skipGap text = mark :: rest) :
    ∃ hlt, behindMark? mark text = some ⟨rest, hlt⟩ := by
  have hlt := length_lt_of_skipGap_eq h
  refine ⟨hlt, ?_⟩
  rw [behindMark?]
  split
  · simp_all
  · simp_all

/-- A mark is not found where another character comes first. -/
theorem behindMark?_eq_none {mark : Char} (h : (skipGap text).head? ≠ some mark) :
    behindMark? mark text = none := by
  rw [behindMark?]
  split
  · rfl
  · simp_all

/-- A value that is no list and no object. -/
theorem gives_readValue?_leaf {value : Json} {n : Nat} (h : skipGap text = c :: rest)
    (hbracket : c ≠ '[') (hbrace : c ≠ '\x7b') (hleaf : readLeaf? c rest = some (value, n)) :
    (readValue? text).Gives value (rest.drop n) := by
  have hrest := length_lt_of_skipGap_eq h
  refine ⟨by rw [List.length_drop]; omega, ?_⟩
  rw [readValue?]
  split
  · simp_all
  · simp_all

/-- A list with nothing in it. -/
theorem gives_readValue?_emptyArray (h : skipGap text = '[' :: rest)
    (hclose : skipGap rest = ']' :: rest₁) : (readValue? text).Gives (.array []) rest₁ := by
  obtain ⟨hlt, hmark⟩ := behindMark?_eq_some hclose
  refine ⟨Nat.lt_trans hlt (length_lt_of_skipGap_eq h), ?_⟩
  rw [readValue?]
  split
  · simp_all
  · rename_i hsplit
    obtain ⟨rfl, rfl⟩ := List.cons.inj (hsplit.symm.trans h)
    simp [hmark]

/-- A list with elements. -/
theorem gives_readValue?_array {items : List Json} (h : skipGap text = '[' :: rest)
    (hopen : (skipGap rest).head? ≠ some ']')
    (hitems : (readItems? rest).Gives items rest₁) :
    (readValue? text).Gives (.array items) rest₁ := by
  obtain ⟨hlt, hread⟩ := hitems
  have hmark := behindMark?_eq_none hopen
  refine ⟨Nat.lt_trans hlt (length_lt_of_skipGap_eq h), ?_⟩
  rw [readValue?]
  split
  · simp_all
  · rename_i hsplit
    obtain ⟨rfl, rfl⟩ := List.cons.inj (hsplit.symm.trans h)
    simp [hmark, hread]

/-- An object with nothing in it. -/
theorem gives_readValue?_emptyObject (h : skipGap text = '\x7b' :: rest)
    (hclose : skipGap rest = '\x7d' :: rest₁) : (readValue? text).Gives (.object []) rest₁ := by
  obtain ⟨hlt, hmark⟩ := behindMark?_eq_some hclose
  refine ⟨Nat.lt_trans hlt (length_lt_of_skipGap_eq h), ?_⟩
  rw [readValue?]
  split
  · simp_all
  · rename_i hsplit
    obtain ⟨rfl, rfl⟩ := List.cons.inj (hsplit.symm.trans h)
    simp [hmark]

/-- An object with members. -/
theorem gives_readValue?_object {members : List (Option String × Json)}
    (h : skipGap text = '\x7b' :: rest) (hopen : (skipGap rest).head? ≠ some '\x7d')
    (hmembers : (readMembers? rest).Gives members rest₁) :
    (readValue? text).Gives (.object members) rest₁ := by
  obtain ⟨hlt, hread⟩ := hmembers
  have hmark := behindMark?_eq_none hopen
  refine ⟨Nat.lt_trans hlt (length_lt_of_skipGap_eq h), ?_⟩
  rw [readValue?]
  split
  · simp_all
  · rename_i hsplit
    obtain ⟨rfl, rfl⟩ := List.cons.inj (hsplit.symm.trans h)
    simp [hmark, hread]

/-- The last element of a list. -/
theorem gives_readItems?_last {item : Json} (hitem : (readValue? text).Gives item rest)
    (hclose : skipGap rest = ']' :: rest₁) : (readItems? text).Gives [item] rest₁ := by
  obtain ⟨hlt, hread⟩ := hitem
  obtain ⟨hlt₁, hmark⟩ := behindMark?_eq_some hclose
  have hcomma : behindMark? ',' rest = none := behindMark?_eq_none (by simp [hclose])
  refine ⟨by omega, ?_⟩
  rw [readItems?, hread]
  simp [hcomma, hmark]

/-- An element with more behind it. -/
theorem gives_readItems?_next {item : Json} {items : List Json}
    (hitem : (readValue? text).Gives item rest) (hcomma : skipGap rest = ',' :: rest₁)
    (hitems : (readItems? rest₁).Gives items rest₂) :
    (readItems? text).Gives (item :: items) rest₂ := by
  obtain ⟨hlt, hread⟩ := hitem
  obtain ⟨hlt₁, hmark⟩ := behindMark?_eq_some hcomma
  obtain ⟨hlt₂, hrest⟩ := hitems
  refine ⟨by omega, ?_⟩
  rw [readItems?, hread]
  simp [hmark, hrest]

/-- The last member of an object. -/
theorem gives_readMembers?_last {name : String} {value : Json}
    (hname : skipGap text = quoted name.toList ++ rest) (hcolon : skipGap rest = ':' :: rest₁)
    (hvalue : (readValue? rest₁).Gives value rest₂) (hclose : skipGap rest₂ = '\x7d' :: rest₃) :
    (readMembers? text).Gives [(some name, value)] rest₃ := by
  rw [quoted_append] at hname
  obtain ⟨hlt, hopen⟩ := behindMark?_eq_some hname
  obtain ⟨n, hliteral, hdrop⟩ := readString?_quoted name.toList rest
  rw [← hdrop] at hcolon
  obtain ⟨hlt₁, hmark⟩ := behindMark?_eq_some hcolon
  rw [hdrop] at hlt₁
  obtain ⟨hlt₂, hread⟩ := hvalue
  obtain ⟨hlt₃, hbrace⟩ := behindMark?_eq_some hclose
  have hcomma : behindMark? ',' rest₂ = none := behindMark?_eq_none (by simp [hclose])
  rw [List.length_append, List.length_cons] at hlt
  refine ⟨by omega, ?_⟩
  rw [readMembers?, hopen]
  simp only [Option.bind_eq_bind, Option.bind_some, hliteral, hmark, hread, hcomma, hbrace,
    String.ofList_toList]
  rfl

/-- A member with more behind it. -/
theorem gives_readMembers?_next {name : String} {value : Json}
    {members : List (Option String × Json)} (hname : skipGap text = quoted name.toList ++ rest)
    (hcolon : skipGap rest = ':' :: rest₁) (hvalue : (readValue? rest₁).Gives value rest₂)
    (hcomma : skipGap rest₂ = ',' :: rest₃) {rest₄ : List Char}
    (hmembers : (readMembers? rest₃).Gives members rest₄) :
    (readMembers? text).Gives ((some name, value) :: members) rest₄ := by
  rw [quoted_append] at hname
  obtain ⟨hlt, hopen⟩ := behindMark?_eq_some hname
  obtain ⟨n, hliteral, hdrop⟩ := readString?_quoted name.toList rest
  rw [← hdrop] at hcolon
  obtain ⟨hlt₁, hmark⟩ := behindMark?_eq_some hcolon
  rw [hdrop] at hlt₁
  obtain ⟨hlt₂, hread⟩ := hvalue
  obtain ⟨hlt₃, hnext⟩ := behindMark?_eq_some hcomma
  obtain ⟨hlt₄, hrest⟩ := hmembers
  rw [List.length_append, List.length_cons] at hlt
  refine ⟨by omega, ?_⟩
  rw [readMembers?, hopen]
  simp only [Option.bind_eq_bind, Option.bind_some, hliteral, hmark, hread, hnext, hrest,
    String.ofList_toList]
  rfl

end Readers

/-- Values without numbers, in which every literal denotes a text. -/
inductive Plain : Json → Prop
  | null : Plain .null
  | bool (value : Bool) : Plain (.bool value)
  | text (text : String) : Plain (.ofString text)
  | array {items : List Json} (h : ∀ item ∈ items, Plain item) : Plain (.array items)
  | object {members : List (String × Json)} (h : ∀ member ∈ members, Plain member.2) :
    Plain (.ofMembers members)

namespace Plain

variable {v : Json} {indent outer : Nat} {text rest : List Char}

/-- A layout starts with a character that counts and closes no list. -/
theorem exists_layoutAt_eq (h : v.Plain) (indent : Nat) :
    ∃ c tail, v.layoutAt indent = c :: tail ∧ isGap c = false ∧ c ≠ ']' := by
  cases h with
  | null => exact ⟨_, _, rfl, by decide, by decide⟩
  | bool value => cases value <;> exact ⟨_, _, rfl, by decide, by decide⟩
  | text text => exact ⟨_, _, rfl, by decide, by decide⟩
  | @array items => cases items <;> exact ⟨_, _, rfl, by decide, by decide⟩
  | @object members => cases members <;> exact ⟨_, _, rfl, by decide, by decide⟩

theorem skipGap_layoutAt (h : v.Plain) (indent : Nat) (rest : List Char) :
    skipGap (v.layoutAt indent ++ rest) = v.layoutAt indent ++ rest := by
  obtain ⟨c, tail, heq, hgap, -⟩ := h.exists_layoutAt_eq indent
  rw [heq]
  exact skipGap_cons_of_not_isGap hgap _

/-- The reader finds the value wherever its layout is the next that counts. -/
def ReadsBack (v : Json) : Prop :=
  ∀ {indent : Nat} {text rest : List Char}, skipGap text = v.layoutAt indent ++ rest →
    (readValue? text).Gives v rest

theorem layoutAt_array_append (item : Json) (items : List Json) (indent : Nat) (rest : List Char) :
    (Json.array (item :: items)).layoutAt indent ++ rest =
      '[' :: (lineBreak (indent + 2) ++ (item.layoutAt (indent + 2) ++
        (layoutItems (indent + 2) items ++ (lineBreak indent ++ ']' :: rest)))) := by
  have hlayout : (Json.array (item :: items)).layoutAt indent =
      '[' :: lineBreak (indent + 2) ++ item.layoutAt (indent + 2) ++
        layoutItems (indent + 2) items ++ lineBreak indent ++ [']'] := rfl
  simp [hlayout]

/-- The elements of a list are found one after the other. -/
theorem gives_readItems? {item : Json} {items : List Json} (hplain : ∀ v ∈ item :: items, v.Plain)
    (hback : ∀ v ∈ item :: items, ReadsBack v)
    (htext : skipGap text = item.layoutAt indent ++ (layoutItems indent items
      ++ (lineBreak outer ++ ']' :: rest))) :
    (readItems? text).Gives (item :: items) rest := by
  induction items generalizing item text with
  | nil =>
      apply gives_readItems?_last (hback item (.head _) htext)
      rw [layoutItems, List.nil_append, skipGap_lineBreak]
      exact skipGap_cons_of_not_isGap rfl rest
  | cons next items ih =>
      rw [List.forall_mem_cons] at hplain hback
      apply gives_readItems?_next (hback.1 htext)
      · rw [layoutItems, List.cons_append, List.cons_append, List.cons_append]
        exact skipGap_cons_of_not_isGap rfl _
      · apply ih hplain.2 hback.2
        rw [List.append_assoc, List.append_assoc, skipGap_lineBreak,
          (hplain.2 next (.head _)).skipGap_layoutAt]

theorem skipGap_layoutMember (member : Option String × Json) (indent : Nat) (rest : List Char) :
    skipGap (layoutMember indent member ++ rest) = layoutMember indent member ++ rest := by
  rw [layoutMember, List.append_assoc, quoted_append]
  exact skipGap_cons_of_not_isGap rfl _

theorem layoutMember_append (name : String) (v : Json) (indent : Nat) (rest : List Char) :
    layoutMember indent (some name, v) ++ rest =
      quoted name.toList ++ ':' :: ' ' :: (v.layoutAt indent ++ rest) := by
  simp [layoutMember]

theorem layoutAt_object_append (member : Option String × Json)
    (members : List (Option String × Json)) (indent : Nat) (rest : List Char) :
    (Json.object (member :: members)).layoutAt indent ++ rest =
      '\x7b' :: (lineBreak (indent + 2) ++ (layoutMember (indent + 2) member ++
        (layoutMembers (indent + 2) members ++ (lineBreak indent ++ '\x7d' :: rest)))) := by
  have hlayout : (Json.object (member :: members)).layoutAt indent =
      '\x7b' :: lineBreak (indent + 2) ++ layoutMember (indent + 2) member ++
        layoutMembers (indent + 2) members ++ lineBreak indent ++ ['\x7d'] := rfl
  simp [hlayout]

/-- The members of an object are found one after the other. -/
theorem gives_readMembers? {member : String × Json} {members : List (String × Json)}
    (hplain : ∀ m ∈ member :: members, m.2.Plain)
    (hback : ∀ m ∈ member :: members, ReadsBack m.2)
    (htext : skipGap text = layoutMember indent (some member.1, member.2)
      ++ (layoutMembers indent (members.map fun m => (some m.1, m.2))
      ++ (lineBreak outer ++ '\x7d' :: rest))) :
    (readMembers? text).Gives ((member :: members).map fun m => (some m.1, m.2)) rest := by
  induction members generalizing member text with
  | nil =>
      rw [List.forall_mem_singleton] at hplain hback
      rw [layoutMember_append] at htext
      apply gives_readMembers?_last htext (skipGap_cons_of_not_isGap rfl _)
      · apply hback
        rw [skipGap_cons_of_isGap rfl, hplain.skipGap_layoutAt]
      · rw [List.map_nil, layoutMembers, List.nil_append, skipGap_lineBreak]
        exact skipGap_cons_of_not_isGap rfl rest
  | cons next members ih =>
      rw [List.forall_mem_cons] at hplain hback
      rw [layoutMember_append] at htext
      apply gives_readMembers?_next htext (skipGap_cons_of_not_isGap rfl _)
      · apply hback.1
        rw [skipGap_cons_of_isGap rfl, hplain.1.skipGap_layoutAt]
      · rw [List.map_cons, layoutMembers, List.cons_append, List.cons_append, List.cons_append]
        exact skipGap_cons_of_not_isGap rfl _
      · apply ih hplain.2 hback.2
        rw [List.append_assoc, List.append_assoc, skipGap_lineBreak, skipGap_layoutMember]

/-- A value is found where it was laid out, and what stands behind it is left. -/
theorem readsBack (h : v.Plain) : ReadsBack v := by
  induction h with
  | null =>
      intro indent text rest htext
      exact gives_readValue?_leaf htext (by decide) (by decide) rfl
  | bool value =>
      intro indent text rest htext
      cases value
      · exact gives_readValue?_leaf htext (by decide) (by decide) rfl
      · exact gives_readValue?_leaf htext (by decide) (by decide) rfl
  | text contents =>
      intro indent text rest htext
      have hlayout : (ofString contents).layoutAt indent = quoted contents.toList := rfl
      obtain ⟨n, hliteral, hdrop⟩ := readString?_quoted contents.toList rest
      rw [hlayout, quoted_append] at htext
      rw [← hdrop]
      apply gives_readValue?_leaf htext (by decide) (by decide)
      rw [readLeaf?, hliteral, String.ofList_toList]
      rfl
  | @array items hplain ih =>
      intro indent text rest htext
      cases items with
      | nil =>
          exact gives_readValue?_emptyArray htext (skipGap_cons_of_not_isGap rfl rest)
      | cons item items =>
          obtain ⟨c, tail, hhead, hgap, hne⟩ :=
            (hplain item (.head _)).exists_layoutAt_eq (indent + 2)
          have hfirst := (hplain item (.head _)).skipGap_layoutAt (indent + 2)
          rw [layoutAt_array_append] at htext
          apply gives_readValue?_array htext
          · rw [skipGap_lineBreak, hfirst, hhead]
            simpa using hne
          · apply gives_readItems? hplain ih
            rw [skipGap_lineBreak, hfirst]
  | @object members hplain ih =>
      intro indent text rest htext
      cases members with
      | nil =>
          exact gives_readValue?_emptyObject htext (skipGap_cons_of_not_isGap rfl rest)
      | cons member members =>
          rw [ofMembers, List.map_cons, layoutAt_object_append] at htext
          apply gives_readValue?_object htext
          · rw [skipGap_lineBreak, skipGap_layoutMember]
            simp [layoutMember, quoted]
          · apply gives_readMembers? hplain ih
            rw [skipGap_lineBreak, skipGap_layoutMember]

end Plain

/-- A value without numbers reads back from its layout. -/
theorem read?_layout {v : Json} (h : v.Plain) : read? v.layout = some v := by
  have htext : skipGap v.layout.toList = v.layoutAt 0 ++ [] := by
    rw [layout, String.toList_ofList]
    simpa using h.skipGap_layoutAt 0 []
  obtain ⟨hlt, hread⟩ := h.readsBack htext
  rw [read?, hread]
  rfl

end Json

end BlockCode
