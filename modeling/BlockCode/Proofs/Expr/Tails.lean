/- # How far a token reaches

A token is the longest that the text allows from its first character on. With less of the text
behind it no longer token comes up, so it stays the same in every shorter text that still has it as
a whole, unless it is a string that is not closed. And more text behind it makes no difference where
that starts with what ends the token: a name or a number ends at every character that names do not
have, and any token but a string ends at a break, that is a space, a parenthesis, a bracket, a comma
or the end of the text.
-/

import BlockCode.Proofs.Expr.Lexemes
import BlockCode.Proofs.Names.CodePoints

namespace BlockCode

/-! ## What ends a token -/

/-- What stands here is a break. -/
def Breaks (rest : List Char) : Prop :=
  ∀ c ∈ rest.head?, c ∈ [' ', '(', ')', '[', ']', ',']

theorem breaks_nil : Breaks [] := by
  simp [Breaks]

theorem breaks_cons {c : Char} {rest : List Char} :
    Breaks (c :: rest) ↔ c ∈ [' ', '(', ')', '[', ']', ','] := by
  simp [Breaks]

/-- What holds of the characters that break holds of the first character of a break. -/
theorem Breaks.head? {P : Char → Prop} [DecidablePred P] {rest : List Char} (h : Breaks rest)
    (hP : [' ', '(', ')', '[', ']', ','].all (fun c => decide (P c)) = true) :
    ∀ c ∈ rest.head?, P c :=
  fun c hc => of_decide_eq_true (List.all_eq_true.mp hP c (h c hc))

/-- Whether a dotted name or the user marker may have the character. -/
def isWordChar (c : Char) : Bool :=
  isNamePart c || c == '.' || c == ':'

/-- What stands here ends a name or a number before it, as every break does. -/
def EndsWord (rest : List Char) : Prop :=
  ∀ c ∈ rest.head?, isWordChar c = false

theorem Breaks.endsWord {rest : List Char} (h : Breaks rest) : EndsWord rest :=
  h.head? (by decide)

theorem EndsWord.notMem {rest : List Char} (h : EndsWord rest) {word : List Char}
    (hword : word.all isWordChar = true) : ∀ c ∈ rest.head?, c ∉ word := by
  intro c hc hmem
  have hpart := List.all_eq_true.mp hword c hmem
  rw [h c hc] at hpart
  cases hpart

theorem isNamePart_of_isAsciiDigit {d : Char} (h : isAsciiDigit d = true) :
    isNamePart d = true :=
  isNamePart_of_isAsciiNamePart (by simp [isAsciiNamePart, h])

theorem isWordChar_of_isAsciiDigit {d : Char} (h : isAsciiDigit d = true) :
    isWordChar d = true := by
  rw [isWordChar, isNamePart_of_isAsciiDigit h]
  rfl

/-- So no digit stands behind the end of a word. -/
theorem EndsWord.isAsciiDigit_head? {rest : List Char} (h : EndsWord rest) :
    ∀ c ∈ rest.head?, isAsciiDigit c = false := by
  intro c hc
  rw [← Bool.not_eq_true]
  intro hdigit
  exact Bool.false_ne_true ((h c hc).symm.trans (isWordChar_of_isAsciiDigit hdigit))

theorem isWordChar_eq_false_iff {c : Char} :
    isWordChar c = false ↔ isNamePart c = false ∧ (c == '.') = false ∧ (c == ':') = false := by
  rw [isWordChar, Bool.or_eq_false_iff, Bool.or_eq_false_iff, and_assoc]

theorem isNamePart_of_isNameStart {c : Char} (h : isNameStart c = true) : isNamePart c = true := by
  rw [isNameStart] at h
  rw [isNamePart, h, Bool.true_or]

/-! ## Words at the front of a text -/

theorem afterWord?_eq_some_iff {word text behind : List Char} :
    afterWord? word text = some behind ↔ text = word ++ behind := by
  induction word generalizing text with
  | nil => simp [afterWord?]
  | cons w word ih =>
      cases text with
      | nil => simp [afterWord?]
      | cons c text =>
          rw [afterWord?, List.cons_append, List.cons.injEq]
          by_cases hc : w = c
          · rw [if_pos (beq_iff_eq.mpr hc), ih]
            simp [hc]
          · rw [if_neg (by simpa using hc)]
            simp [Ne.symm hc]

theorem startsWithWord_iff {word text : List Char} :
    startsWithWord word text = true ↔ word <+: text := by
  rw [startsWithWord, Option.isSome_iff_exists]
  constructor
  · rintro ⟨behind, h⟩
    exact ⟨behind, (afterWord?_eq_some_iff.mp h).symm⟩
  · rintro ⟨behind, h⟩
    exact ⟨behind, afterWord?_eq_some_iff.mpr h.symm⟩

theorem startsWithWord_cons {w c : Char} {word text : List Char} :
    startsWithWord (w :: word) (c :: text) = (w == c && startsWithWord word text) := by
  rw [startsWithWord, afterWord?, startsWithWord]
  cases w == c <;> rfl

/-- A word that starts a text ends before the first character that it does not have. -/
theorem prefix_of_prefix_append {word text rest : List Char} (h : word <+: text ++ rest)
    (hrest : ∀ c ∈ rest.head?, c ∉ word) : word <+: text := by
  rcases List.prefix_or_prefix_of_prefix h (List.prefix_append text rest) with h' | ⟨more, rfl⟩
  · exact h'
  · cases more with
    | nil => simp
    | cons c more =>
        obtain ⟨behind, hbehind⟩ := (List.prefix_append_right_inj text).mp h
        rw [← hbehind] at hrest
        exact absurd (by simp) (hrest c rfl)

/-- What stands behind a text does not make it start with a word that it does not start with, if the
word has not the first character of that. -/
theorem startsWithWord_append_eq {word text rest : List Char} (hrest : ∀ c ∈ rest.head?, c ∉ word) :
    startsWithWord word (text ++ rest) = startsWithWord word text := by
  rw [Bool.eq_iff_iff, startsWithWord_iff, startsWithWord_iff]
  exact ⟨fun h => prefix_of_prefix_append h hrest, fun h => h.trans (List.prefix_append text rest)⟩

/-! ## What a token is made of -/

section Parts

variable {c : Char} {rest tail : List Char} {kind : TokenKind}

theorem nameTail_isPrefix (text : List Char) : nameTail text <+: text := by
  fun_induction nameTail text with
  | case1 => exact List.prefix_refl _
  | case2 c rest _ ih => exact List.cons_prefix_cons.mpr ⟨rfl, ih⟩
  | case3 c rest _ _ _ ih => exact List.cons_prefix_cons.mpr ⟨rfl, ih⟩
  | case4 c rest => exact List.cons_prefix_cons.mpr ⟨rfl, List.nil_prefix⟩
  | case5 c rest => exact List.nil_prefix

theorem wordTail_isPrefix (first : Char) (rest : List Char) : wordTail first rest <+: rest := by
  rw [wordTail]
  cases hword : afterWord? dottedUserWord (first :: rest) with
  | none => exact nameTail_isPrefix rest
  | some behind =>
      have hrest : rest = dottedUserWord.tail ++ behind :=
        (List.cons.inj (afterWord?_eq_some_iff.mp hword)).2
      dsimp only
      rw [hrest]
      exact (List.prefix_append_right_inj _).mpr (nameTail_isPrefix behind)

/-- A number is a run of digits, or two of them with a dot between them. -/
theorem numberTail_cases (text : List Char) :
    numberTail text = text.takeWhile isAsciiDigit ∨
      ∃ fraction : List Char, fraction.isEmpty = false ∧ (∀ d ∈ fraction, isAsciiDigit d = true) ∧
        numberTail text = text.takeWhile isAsciiDigit ++ '.' :: fraction := by
  rw [numberTail]
  split
  · rename_i rest _
    by_cases hempty : (rest.takeWhile isAsciiDigit).isEmpty = true
    · rw [if_pos hempty]
      exact .inl rfl
    · rw [if_neg hempty]
      exact .inr ⟨_, by simpa using hempty, List.all_eq_true.mp List.all_takeWhile,
        rfl⟩
  · exact .inl rfl

/-- A run of characters is taken up to the first one that does not belong to it. -/
theorem takeWhile_append_of_head {p : Char → Bool} {text rest : List Char}
    (htext : ∀ c ∈ text, p c = true) (hrest : ∀ c ∈ rest.head?, p c = false) :
    (text ++ rest).takeWhile p = text ∧ (text ++ rest).dropWhile p = rest := by
  rw [List.takeWhile_append_of_pos htext, List.dropWhile_append_of_pos htext]
  cases rest with
  | nil => simp
  | cons c rest =>
      rw [List.takeWhile_cons, List.dropWhile_cons, hrest c rfl]
      simp

theorem numberTail_isPrefix (text : List Char) : numberTail text <+: text := by
  rw [numberTail]
  split
  · rename_i rest hrest
    dsimp only
    split
    · exact List.takeWhile_prefix _
    · have hsplit : text = text.takeWhile isAsciiDigit ++ '.' :: rest := by
        rw [← hrest, List.takeWhile_append_dropWhile]
      have hfraction : '.' :: rest.takeWhile isAsciiDigit <+: '.' :: rest :=
        List.cons_prefix_cons.mpr ⟨rfl, List.takeWhile_prefix _⟩
      have hprefix := (List.prefix_append_right_inj (text.takeWhile isAsciiDigit)).mpr hfraction
      rwa [← hsplit] at hprefix
  · exact List.takeWhile_prefix _

theorem stringTail_isPrefix (text : List Char) : (stringTail text).1 <+: text := by
  fun_induction stringTail text <;>
    simp_all [List.cons_prefix_cons]

/-- The first operator of the table that the text starts with has the text's first character. -/
theorem eq_cons_of_find?_operatorWords {entry : String × TokenKind}
    (h : (operatorWords.find? fun (word, _) => startsWithWord word.toList (c :: rest)) =
      some entry) :
    entry ∈ operatorWords ∧ entry.1.toList = c :: entry.1.toList.tail ∧
      entry.1.toList.tail <+: rest := by
  have hmem := List.mem_of_find?_eq_some h
  obtain ⟨word, kind⟩ := entry
  have hstarts : startsWithWord word.toList (c :: rest) = true := by
    simpa using List.find?_some h
  obtain ⟨behind, hword⟩ := startsWithWord_iff.mp hstarts
  cases hlist : word.toList with
  | nil =>
      have hne : ∀ entry ∈ operatorWords, entry.1.toList ≠ [] := by decide
      exact absurd hlist (hne _ hmem)
  | cons d more =>
      rw [hlist] at hword
      obtain ⟨rfl, hmore⟩ := List.cons.inj hword
      exact ⟨hmem, rfl, behind, hmore⟩

/-- A quote starts a string, closed or not. -/
theorem tokenTail?_quote (text : List Char) : tokenTail? '"' text =
    some (if (stringTail text).2 then .string else .unclosedString, (stringTail text).1) :=
  rfl

theorem tokenTail?_isPrefix (h : tokenTail? c rest = some (kind, tail)) : tail <+: rest := by
  rw [tokenTail?] at h
  split at h
  · split at h
    · rename_i huser
      obtain ⟨behind, hbehind⟩ := startsWithWord_iff.mp huser
      obtain ⟨rfl, rfl⟩ := Prod.mk.inj (Option.some.inj h)
      exact ⟨behind, (List.cons.inj hbehind).2⟩
    · obtain ⟨rfl, rfl⟩ := Prod.mk.inj (Option.some.inj h)
      exact wordTail_isPrefix c rest
  · split at h
    · obtain ⟨rfl, rfl⟩ := Prod.mk.inj (Option.some.inj h)
      exact numberTail_isPrefix rest
    · split at h
      · obtain ⟨rfl, rfl⟩ := Prod.mk.inj (Option.some.inj h)
        exact stringTail_isPrefix rest
      · obtain ⟨entry, hfind, heq⟩ := Option.map_eq_some_iff.mp h
        obtain ⟨rfl, rfl⟩ := Prod.mk.inj heq
        exact (eq_cons_of_find?_operatorWords hfind).2.2

theorem isNamePart_or_dot_of_mem_nameTail (text : List Char) :
    ∀ d ∈ nameTail text, isNamePart d = true ∨ d = '.' := by
  fun_induction nameTail text with
  | case1 => simp
  | case2 d rest hpart ih => exact List.forall_mem_cons.mpr ⟨.inl hpart, ih⟩
  | case3 d rest _ hdot _ ih => exact List.forall_mem_cons.mpr ⟨.inr (eq_of_beq hdot), ih⟩
  | case4 d rest _ hdot => exact List.forall_mem_singleton.mpr (.inr (eq_of_beq hdot))
  | case5 => simp

theorem isWordChar_of_mem_nameTail (text : List Char) :
    ∀ d ∈ nameTail text, isWordChar d = true := by
  intro d hd
  rcases isNamePart_or_dot_of_mem_nameTail text d hd with hpart | rfl
  · simp [isWordChar, hpart]
  · rfl

/-- A token that starts as a name has no other characters. -/
theorem isWordChar_of_tokenTail? (h : tokenTail? c rest = some (kind, tail))
    (hstart : isNameStart c = true) : ∀ d ∈ c :: tail, isWordChar d = true := by
  have hfirst : isWordChar c = true := by simp [isWordChar, isNamePart_of_isNameStart hstart]
  refine List.forall_mem_cons.mpr ⟨hfirst, ?_⟩
  rw [tokenTail?, if_pos hstart] at h
  split at h
  · obtain ⟨rfl, rfl⟩ := Prod.mk.inj (Option.some.inj h)
    exact List.all_eq_true.mp (show userMarkerText.toList.tail.all isWordChar = true by decide)
  · obtain ⟨rfl, rfl⟩ := Prod.mk.inj (Option.some.inj h)
    rw [wordTail]
    split
    · exact List.forall_mem_append.mpr
        ⟨List.all_eq_true.mp (show dottedUserWord.tail.all isWordChar = true by decide),
          isWordChar_of_mem_nameTail _⟩
    · exact isWordChar_of_mem_nameTail rest

/-- A number has only digits and a dot, which names may have too. -/
theorem isNamePart_or_dot_of_mem_numberTail {text : List Char} {d : Char}
    (h : d ∈ numberTail text) : isNamePart d = true ∨ d = '.' := by
  have hrun : ∀ d ∈ text.takeWhile isAsciiDigit, isNamePart d = true := fun d hd =>
    isNamePart_of_isAsciiDigit (List.all_eq_true.mp List.all_takeWhile d hd)
  rcases numberTail_cases text with hplain | ⟨fraction, -, hfraction, hdotted⟩
  · exact .inl (hrun d (hplain ▸ h))
  · rw [hdotted, List.mem_append, List.mem_cons] at h
    rcases h with h | rfl | h
    · exact .inl (hrun d h)
    · exact .inr rfl
    · exact .inl (isNamePart_of_isAsciiDigit (hfraction d h))

theorem isWordChar_of_mem_numberTail {text : List Char} {d : Char} (h : d ∈ numberTail text) :
    isWordChar d = true := by
  rcases isNamePart_or_dot_of_mem_numberTail h with hpart | rfl
  · simp [isWordChar, hpart]
  · rfl

/-- A name or a number among the tokens has only characters of names and dots. -/
theorem isNamePart_or_dot_of_tokenTail? (h : tokenTail? c rest = some (kind, tail))
    (hkind : kind = .number ∨ kind = .name) : ∀ d ∈ c :: tail, isNamePart d = true ∨ d = '.' := by
  rw [List.forall_mem_cons]
  rw [tokenTail?] at h
  split at h
  · next hstart =>
    refine ⟨.inl (isNamePart_of_isNameStart hstart), ?_⟩
    split at h
    · cases h
      rcases hkind with hkind | hkind <;> cases hkind
    · cases h
      rw [wordTail]
      split
      · rw [List.forall_mem_append]
        exact ⟨by decide, isNamePart_or_dot_of_mem_nameTail _⟩
      · exact isNamePart_or_dot_of_mem_nameTail rest
  · split at h
    · next hdigit =>
      cases h
      exact ⟨.inl (isNamePart_of_isAsciiDigit hdigit), fun d hd =>
        isNamePart_or_dot_of_mem_numberTail hd⟩
    · split at h
      · cases h
        split at hkind <;> rcases hkind with hkind | hkind <;> cases hkind
      · have hoperators : ∀ entry ∈ operatorWords, entry.2 ≠ .number ∧ entry.2 ≠ .name := by
          decide
        obtain ⟨entry, hfind, heq⟩ := Option.map_eq_some_iff.mp h
        cases heq
        have hne := hoperators entry (List.mem_of_find?_eq_some hfind)
        exact absurd hkind (not_or.mpr hne)

/-- A token is the user marker, a word, a number, a string or an operator. -/
theorem tokenTail?_cases (h : tokenTail? c rest = some (kind, tail)) :
    kind = .userMarker ∧ c :: tail = userMarkerText.toList ∨
      kind ∈ [.trueWord, .falseWord, .and, .or, .not, .name, .number] ∧
        (∀ d ∈ c :: tail, isWordChar d = true) ∨
      c = '"' ∧ kind ∈ [.string, .unclosedString] ∨
      ∃ entry ∈ operatorWords, entry.2 = kind ∧ entry.1.toList = c :: tail := by
  by_cases hstart : isNameStart c = true
  · have hchars := isWordChar_of_tokenTail? h hstart
    rw [tokenTail?, if_pos hstart] at h
    split at h
    · next hmarker =>
      obtain ⟨behind, hbehind⟩ := startsWithWord_iff.mp hmarker
      obtain ⟨rfl, rfl⟩ := Prod.mk.inj (Option.some.inj h)
      obtain ⟨hc, -⟩ := List.cons.inj hbehind
      exact .inl ⟨rfl, by rw [← hc]; rfl⟩
    · obtain ⟨rfl, rfl⟩ := Prod.mk.inj (Option.some.inj h)
      have hsubset : [TokenKind.trueWord, .falseWord, .and, .or, .not, .name] ⊆
          [.trueWord, .falseWord, .and, .or, .not, .name, .number] := by
        decide
      exact .inr (.inl ⟨hsubset (wordKind_mem _), hchars⟩)
  · rw [tokenTail?, if_neg hstart] at h
    split at h
    · next hdigit =>
      cases h
      refine .inr (.inl ⟨by decide, List.forall_mem_cons.mpr
        ⟨isWordChar_of_isAsciiDigit hdigit, fun d hd => isWordChar_of_mem_numberTail hd⟩⟩)
    · split at h
      · next hquote =>
        cases h
        refine .inr (.inr (.inl ⟨eq_of_beq hquote, ?_⟩))
        split <;> decide
      · obtain ⟨entry, hfind, heq⟩ := Option.map_eq_some_iff.mp h
        cases heq
        obtain ⟨hmem, hword, -⟩ := eq_cons_of_find?_operatorWords hfind
        exact .inr (.inr (.inr ⟨entry, hmem, rfl, hword⟩))

/-- Only a quote starts a string that is not closed. -/
theorem eq_quote_of_tokenTail? (h : tokenTail? c rest = some (.unclosedString, tail)) :
    c = '"' := by
  have hoperators : ∀ entry ∈ operatorWords, entry.2 ≠ .unclosedString := by decide
  rcases tokenTail?_cases h with ⟨hkind, -⟩ | ⟨hkind, -⟩ | ⟨hc, -⟩ | ⟨entry, hmem, hkind, -⟩
  · cases hkind
  · exact absurd hkind (by decide)
  · exact hc
  · exact absurd hkind (hoperators entry hmem)

/-- A token that is no string consists of the characters of names, numbers and operators. -/
theorem mem_of_tokenTail? (h : tokenTail? c rest = some (kind, tail)) (hc : c ≠ '"') :
    ∀ d ∈ c :: tail, isWordChar d = true ∨ ∃ entry ∈ operatorWords, d ∈ entry.1.toList := by
  rcases tokenTail?_cases h with ⟨-, hmarker⟩ | ⟨-, hchars⟩ | ⟨hquote, -⟩ |
    ⟨entry, hmem, -, hword⟩
  · rw [hmarker]
    exact fun d hd => .inl (List.all_eq_true.mp
      (show userMarkerText.toList.all isWordChar = true by decide) d hd)
  · exact fun d hd => .inl (hchars d hd)
  · exact absurd hquote hc
  · exact fun d hd => .inr ⟨entry, hmem, hword ▸ hd⟩

end Parts

/-! ## Tokens in a shorter text -/

section Shorter

variable {text more : List Char}

theorem head?_any_of_isPrefix {p : Char → Bool} (h : text <+: more)
    (hmore : more.head?.any p = false) : text.head?.any p = false := by
  cases text with
  | nil => rfl
  | cons c text =>
      obtain ⟨behind, rfl⟩ := h
      exact hmore

theorem startsWithWord_of_isPrefix {word : List Char} (h : text <+: more)
    (hword : startsWithWord word text = true) : startsWithWord word more = true :=
  startsWithWord_iff.mpr ((startsWithWord_iff.mp hword).trans h)

theorem startsWithWord_eq_of_isPrefix {word : List Char} (h : text <+: more)
    (hword : startsWithWord word more = true → word <+: text) :
    startsWithWord word text = startsWithWord word more :=
  Bool.eq_iff_iff.mpr
    ⟨startsWithWord_of_isPrefix h, fun hmore => startsWithWord_iff.mpr (hword hmore)⟩

/-- A text that starts with a word has its first character. -/
theorem exists_cons_of_cons_prefix {c : Char} {word : List Char} (h : c :: word <+: text) :
    ∃ text', text = c :: text' ∧ word <+: text' := by
  obtain ⟨behind, rfl⟩ := h
  exact ⟨word ++ behind, rfl, List.prefix_append _ _⟩

/-- A dot with a name behind it has the same character behind it once the name is cut off. -/
theorem head?_nameTail {rest : List Char}
    (h : rest.head?.any (fun d => d == '.' || isNameStart d) = true) (rest' : List Char) :
    (nameTail rest ++ rest').head? = rest.head? := by
  cases rest with
  | nil => cases h
  | cons d rest =>
      rw [List.head?_cons, Option.any_some, Bool.or_eq_true, beq_iff_eq] at h
      rw [nameTail]
      rcases h with rfl | h
      · rw [if_neg (by decide), if_pos (by rfl)]
        split <;> rfl
      · rw [if_pos (isNamePart_of_isNameStart h)]
        rfl

theorem nameTail_of_isPrefix (h : text <+: more) (htail : nameTail more <+: text) :
    nameTail text = nameTail more := by
  fun_induction nameTail more generalizing text with
  | case1 => rw [List.prefix_nil.mp h, nameTail]
  | case2 c more hpart ih =>
      obtain ⟨text, rfl, htail'⟩ := exists_cons_of_cons_prefix htail
      rw [nameTail, if_pos hpart, ih (List.cons_prefix_cons.mp h).2 htail']
  | case3 c more hpart hdot hnext ih =>
      obtain ⟨text, rfl, htail'⟩ := exists_cons_of_cons_prefix htail
      have hhead : text.head? = more.head? := by
        obtain ⟨behind, rfl⟩ := htail'
        exact head?_nameTail hnext behind
      rw [nameTail, if_neg hpart, if_pos hdot, hhead, if_pos hnext,
        ih (List.cons_prefix_cons.mp h).2 htail']
  | case4 c more hpart hdot hnext =>
      obtain ⟨text, rfl, -⟩ := exists_cons_of_cons_prefix htail
      have hnone := head?_any_of_isPrefix (List.cons_prefix_cons.mp h).2 (by simpa using hnext)
      rw [nameTail, if_neg hpart, if_pos hdot, hnone, if_neg Bool.false_ne_true]
  | case5 c more hpart hdot =>
      cases text with
      | nil => rw [nameTail]
      | cons d text =>
          obtain rfl := (List.cons_prefix_cons.mp h).1
          rw [nameTail, if_neg hpart, if_neg hdot]

theorem wordTail_of_isPrefix {first : Char} (h : text <+: more)
    (htail : wordTail first more <+: text) : wordTail first text = wordTail first more := by
  cases hword : afterWord? dottedUserWord (first :: more) with
  | none =>
      have hmore : wordTail first more = nameTail more := by rw [wordTail, hword]
      have hnone : afterWord? dottedUserWord (first :: text) = none := by
        rw [← Option.not_isSome_iff_eq_none]
        intro hsome
        have hstarts := startsWithWord_of_isPrefix (List.cons_prefix_cons.mpr ⟨rfl, h⟩) hsome
        rw [startsWithWord, hword] at hstarts
        cases hstarts
      rw [hmore] at htail ⊢
      rw [wordTail, hnone]
      exact nameTail_of_isPrefix h htail
  | some behind =>
      have hmore := afterWord?_eq_some_iff.mp hword
      have hfirst := (List.cons.inj hmore).1
      obtain rfl : more = dottedUserWord.tail ++ behind := (List.cons.inj hmore).2
      have hwhole : wordTail first (dottedUserWord.tail ++ behind) =
          dottedUserWord.tail ++ nameTail behind := by
        rw [wordTail, hword]
      rw [hwhole] at htail ⊢
      obtain ⟨rest, rfl⟩ := (List.prefix_append _ _).trans htail
      have hagain : afterWord? dottedUserWord (first :: (dottedUserWord.tail ++ rest)) =
          some rest :=
        afterWord?_eq_some_iff.mpr (by rw [hfirst]; rfl)
      rw [wordTail, hagain]
      dsimp only
      rw [nameTail_of_isPrefix ((List.prefix_append_right_inj _).mp h)
        ((List.prefix_append_right_inj _).mp htail)]

theorem numberTail_cons {c : Char} (hc : isAsciiDigit c = true) (text : List Char) :
    numberTail (c :: text) = c :: numberTail text := by
  rw [numberTail, numberTail, List.takeWhile_cons_of_pos hc, List.dropWhile_cons_of_pos hc]
  split
  · dsimp only
    split <;> rfl
  · rfl

/-- Without a digit in front, only a dot with a digit behind it starts the continuation of a
number. -/
theorem numberTail_cons_of_not {c : Char} (hc : ¬ isAsciiDigit c = true) (text : List Char) :
    numberTail (c :: text) =
      if c = '.' ∧ text.head?.any isAsciiDigit = true then
        '.' :: text.takeWhile isAsciiDigit
      else [] := by
  rw [numberTail, List.takeWhile_cons_of_neg hc, List.dropWhile_cons_of_neg hc]
  split
  · next rest heq =>
    obtain ⟨rfl, rfl⟩ := List.cons.inj heq
    cases text with
    | nil => rfl
    | cons d text =>
        by_cases hd : isAsciiDigit d = true
        · simp [hd]
        · simp [hd]
  · next hdot =>
    rw [if_neg]
    rintro ⟨rfl, -⟩
    exact hdot text rfl

theorem takeWhile_of_isPrefix {p : Char → Bool} (h : text <+: more)
    (htake : more.takeWhile p <+: text) : text.takeWhile p = more.takeWhile p := by
  induction more generalizing text with
  | nil => rw [List.prefix_nil.mp h]
  | cons c more ih =>
      by_cases hc : p c = true
      · rw [List.takeWhile_cons_of_pos hc] at htake ⊢
        obtain ⟨text, rfl, htake'⟩ := exists_cons_of_cons_prefix htake
        rw [List.takeWhile_cons_of_pos hc, ih (List.cons_prefix_cons.mp h).2 htake']
      · rw [List.takeWhile_cons_of_neg hc]
        cases text with
        | nil => rfl
        | cons d text =>
            obtain rfl := (List.cons_prefix_cons.mp h).1
            rw [List.takeWhile_cons_of_neg hc]

theorem numberTail_of_isPrefix (h : text <+: more) (htail : numberTail more <+: text) :
    numberTail text = numberTail more := by
  induction more generalizing text with
  | nil => rw [List.prefix_nil.mp h]
  | cons c more ih =>
      by_cases hc : isAsciiDigit c = true
      · rw [numberTail_cons hc] at htail
        obtain ⟨text, rfl, htail'⟩ := exists_cons_of_cons_prefix htail
        rw [numberTail_cons hc, numberTail_cons hc, ih (List.cons_prefix_cons.mp h).2 htail']
      · cases text with
        | nil => rw [List.prefix_nil.mp htail]; rfl
        | cons d text =>
            obtain ⟨rfl, h'⟩ := List.cons_prefix_cons.mp h
            rw [numberTail_cons_of_not hc] at htail ⊢
            rw [numberTail_cons_of_not hc]
            by_cases hfraction : d = '.' ∧ more.head?.any isAsciiDigit = true
            · rw [if_pos hfraction] at htail ⊢
              have htake := (List.cons_prefix_cons.mp htail).2
              have hhead : text.head?.any isAsciiDigit = true := by
                obtain ⟨e, more, rfl⟩ : ∃ e more', more = e :: more' := by
                  cases more with
                  | nil => cases hfraction.2
                  | cons e more => exact ⟨e, more, rfl⟩
                have he : isAsciiDigit e = true := hfraction.2
                rw [List.takeWhile_cons_of_pos he] at htake
                obtain ⟨text, rfl, -⟩ := exists_cons_of_cons_prefix htake
                exact he
              rw [if_pos ⟨hfraction.1, hhead⟩, takeWhile_of_isPrefix h' htake]
            · rw [if_neg hfraction, if_neg]
              rintro ⟨hdot, hhead⟩
              cases text with
              | nil => cases hhead
              | cons e text =>
                  obtain ⟨behind, rfl⟩ := h'
                  exact hfraction ⟨hdot, hhead⟩

theorem stringTail_of_isPrefix {tail : List Char} (h : text <+: more)
    (hmore : stringTail more = (tail, true)) (htail : tail <+: text) :
    stringTail text = (tail, true) := by
  fun_induction stringTail more generalizing text tail with
  | case1 => cases hmore
  | case2 c more hquote =>
      obtain ⟨rfl, -⟩ := Prod.mk.inj hmore
      obtain ⟨text, rfl, -⟩ := exists_cons_of_cons_prefix htail
      rw [stringTail.eq_def]
      dsimp only
      rw [if_pos hquote]
  | case3 c hquote hslash => cases hmore
  | case4 c hquote hslash d more hfeed => cases hmore
  | case5 c hquote hslash d more hfeed tail' closed hread ih =>
      obtain ⟨rfl, rfl⟩ := Prod.mk.inj hmore
      obtain ⟨text, rfl, htail'⟩ := exists_cons_of_cons_prefix htail
      obtain ⟨text, rfl, htail''⟩ := exists_cons_of_cons_prefix htail'
      have hbehind := (List.cons_prefix_cons.mp (List.cons_prefix_cons.mp h).2).2
      rw [stringTail.eq_def]
      dsimp only
      rw [if_neg hquote, if_pos hslash, if_neg hfeed, ih hbehind hread htail'']
  | case6 c more hquote hslash tail' closed hread ih =>
      obtain ⟨rfl, rfl⟩ := Prod.mk.inj hmore
      obtain ⟨text, rfl, htail'⟩ := exists_cons_of_cons_prefix htail
      rw [stringTail.eq_def]
      dsimp only
      rw [if_neg hquote, if_neg hslash, ih (List.cons_prefix_cons.mp h).2 hread htail']

/-- The first operator that a text starts with is the first one that the shorter text starts
with, if that has it as a whole. -/
theorem find?_operatorWords_of_isPrefix {entry : String × TokenKind} (h : text <+: more)
    (hfind : (operatorWords.find? fun (word, _) => startsWithWord word.toList more) = some entry)
    (hentry : entry.1.toList <+: text) :
    (operatorWords.find? fun (word, _) => startsWithWord word.toList text) = some entry := by
  rw [List.find?_eq_some_iff_append] at hfind ⊢
  obtain ⟨-, before, behind, hwords, hnone⟩ := hfind
  refine ⟨startsWithWord_iff.mpr hentry, before, behind, hwords, fun other hother => ?_⟩
  have hmore : startsWithWord other.1.toList more = false := by simpa using hnone other hother
  rw [Bool.not_eq_true', ← Bool.not_eq_true]
  intro hstarts
  rw [startsWithWord_of_isPrefix h hstarts] at hmore
  cases hmore

/-- A token of a text is a token of every shorter text that has it as a whole. -/
theorem tokenTail?_of_isPrefix {c : Char} {tail : List Char} {kind : TokenKind} (h : text <+: more)
    (hmore : tokenTail? c more = some (kind, tail)) (hkind : kind ≠ .unclosedString)
    (htail : tail <+: text) : tokenTail? c text = some (kind, tail) := by
  have hcons : c :: text <+: c :: more := List.cons_prefix_cons.mpr ⟨rfl, h⟩
  have hcons' : c :: tail <+: c :: text := List.cons_prefix_cons.mpr ⟨rfl, htail⟩
  rw [tokenTail?] at hmore ⊢
  by_cases hstart : isNameStart c = true
  · rw [if_pos hstart] at hmore ⊢
    have hmarker : startsWithWord userMarkerText.toList (c :: text) =
        startsWithWord userMarkerText.toList (c :: more) := by
      refine startsWithWord_eq_of_isPrefix hcons fun huser => ?_
      obtain ⟨behind, hbehind⟩ := startsWithWord_iff.mp huser
      rw [huser] at hmore
      obtain ⟨-, rfl⟩ := Prod.mk.inj (Option.some.inj hmore)
      rw [← (List.cons.inj hbehind).1] at hcons' ⊢
      exact hcons'
    rw [hmarker]
    split at hmore
    · exact hmore
    · obtain ⟨rfl, rfl⟩ := Prod.mk.inj (Option.some.inj hmore)
      rw [wordTail_of_isPrefix h htail]
  · rw [if_neg hstart] at hmore ⊢
    by_cases hdigit : isAsciiDigit c = true
    · rw [if_pos hdigit] at hmore ⊢
      obtain ⟨rfl, rfl⟩ := Prod.mk.inj (Option.some.inj hmore)
      rw [numberTail_of_isPrefix h htail]
    · rw [if_neg hdigit] at hmore ⊢
      by_cases hquote : (c == '"') = true
      · rw [if_pos hquote] at hmore ⊢
        cases hread : stringTail more with
        | mk found closed =>
            rw [hread] at hmore
            obtain ⟨rfl, rfl⟩ := Prod.mk.inj (Option.some.inj hmore)
            cases closed with
            | false => exact absurd rfl hkind
            | true => rw [stringTail_of_isPrefix h hread htail]
      · rw [if_neg hquote] at hmore ⊢
        obtain ⟨entry, hfind, heq⟩ := Option.map_eq_some_iff.mp hmore
        obtain ⟨-, hword, -⟩ := eq_cons_of_find?_operatorWords hfind
        obtain ⟨rfl, rfl⟩ := Prod.mk.inj heq
        rw [find?_operatorWords_of_isPrefix hcons hfind (by rw [hword]; exact hcons')]
        rfl

end Shorter

/-! ## Tokens in a longer text -/

theorem takeWhile_append_eq {p : Char → Bool} {text rest : List Char}
    (hrest : ∀ c ∈ rest.head?, p c = false) :
    (text ++ rest).takeWhile p = text.takeWhile p ∧
      (text ++ rest).dropWhile p = text.dropWhile p ++ rest := by
  induction text with
  | nil => exact @takeWhile_append_of_head p [] rest (by simp) hrest
  | cons c text ih =>
      rw [List.cons_append, List.takeWhile_cons, List.takeWhile_cons, List.dropWhile_cons,
        List.dropWhile_cons]
      cases p c with
      | true => exact ⟨congrArg (c :: ·) ih.1, ih.2⟩
      | false => exact ⟨rfl, rfl⟩

/-- What ends a name continues none. -/
theorem nameTail_of_endsWord {rest : List Char} (h : EndsWord rest) : nameTail rest = [] := by
  cases rest with
  | nil => rfl
  | cons c rest =>
      obtain ⟨hpart, hdot, _⟩ := isWordChar_eq_false_iff.mp (h c rfl)
      rw [nameTail, hpart, hdot, if_neg Bool.false_ne_true, if_neg Bool.false_ne_true]

theorem not_startsName_of_endsWord {rest : List Char} (h : EndsWord rest) :
    rest.head?.any (fun d => d == '.' || isNameStart d) = false := by
  cases rest with
  | nil => rfl
  | cons d rest =>
      obtain ⟨hpart, hdot, _⟩ := isWordChar_eq_false_iff.mp (h d rfl)
      have hstart : isNameStart d = false := by
        rw [← Bool.not_eq_true]
        intro hstart
        rw [isNamePart_of_isNameStart hstart] at hpart
        cases hpart
      rw [List.head?_cons, Option.any_some, hdot, hstart, Bool.or_false]

/-- A name is continued alike whether or not its end follows. -/
theorem nameTail_append_eq {text rest : List Char} (h : EndsWord rest) :
    nameTail (text ++ rest) = nameTail text := by
  have hnext {text : List Char} : (text ++ rest).head?.any (fun d => d == '.' || isNameStart d) =
      text.head?.any (fun d => d == '.' || isNameStart d) := by
    cases text with
    | nil => exact not_startsName_of_endsWord h
    | cons => rfl
  fun_induction nameTail text with
  | case1 => exact nameTail_of_endsWord h
  | case2 c text hpart ih => rw [List.cons_append, nameTail, if_pos hpart, ih]
  | case3 c text hpart hdot hstarts ih =>
      rw [List.cons_append, nameTail, if_neg hpart, if_pos hdot, hnext, if_pos hstarts, ih]
  | case4 c text hpart hdot hstarts =>
      rw [List.cons_append, nameTail, if_neg hpart, if_pos hdot, hnext, if_neg hstarts]
  | case5 c text hpart hdot => rw [List.cons_append, nameTail, if_neg hpart, if_neg hdot]

theorem wordTail_append_eq {first : Char} {text rest : List Char} (h : EndsWord rest) :
    wordTail first (text ++ rest) = wordTail first text := by
  have hdotted : ∀ c ∈ rest.head?, c ∉ dottedUserWord := h.notMem (by decide)
  cases hword : afterWord? dottedUserWord (first :: text) with
  | none =>
      have hnone := @startsWithWord_append_eq dottedUserWord (first :: text) rest hdotted
      rw [startsWithWord, startsWithWord, hword, Option.isSome_none, Option.isSome_eq_false_iff,
        Option.isNone_iff_eq_none, List.cons_append] at hnone
      rw [wordTail, hnone, wordTail, hword]
      exact nameTail_append_eq h
  | some behind =>
      have hagain :
          afterWord? dottedUserWord (first :: (text ++ rest)) = some (behind ++ rest) := by
        rw [afterWord?_eq_some_iff, ← List.append_assoc, ← afterWord?_eq_some_iff.mp hword,
          List.cons_append]
      rw [wordTail, hagain, wordTail, hword]
      dsimp only
      rw [nameTail_append_eq h]

theorem numberTail_append_eq {text rest : List Char} (h : EndsWord rest) :
    numberTail (text ++ rest) = numberTail text := by
  have hdigits : ∀ c ∈ rest.head?, isAsciiDigit c = false := h.isAsciiDigit_head?
  obtain ⟨htake, hdrop⟩ := @takeWhile_append_eq isAsciiDigit text rest hdigits
  rw [numberTail, numberTail, htake, hdrop]
  cases text.dropWhile isAsciiDigit with
  | nil =>
      rw [List.nil_append]
      split
      · exact absurd (h '.' rfl) (by decide)
      · rfl
  | cons d behind =>
      rw [List.cons_append]
      by_cases hdot : d = '.'
      · subst hdot
        have hfraction := (@takeWhile_append_eq isAsciiDigit behind rest hdigits).1
        simp only [hfraction]
      · split
        · next heq => exact absurd (List.cons.inj heq).1 hdot
        · split
          · next heq => exact absurd (List.cons.inj heq).1 hdot
          · rfl

/-- The first operator in a text is the same whether or not a break follows. -/
theorem find?_operatorWords_append {c : Char} {text rest : List Char} (h : Breaks rest) :
    (operatorWords.find? fun (word, _) => startsWithWord word.toList (c :: (text ++ rest))) =
      operatorWords.find? fun (word, _) => startsWithWord word.toList (c :: text) := by
  have hwords : ∀ entry ∈ operatorWords, entry.1.toList ≠ [] ∧
      ∀ d ∈ [' ', '(', ')', '[', ']', ','], d ∉ entry.1.toList.tail := by
    decide
  rw [← List.head?_filter, ← List.head?_filter]
  congr 1
  refine List.filter_congr fun entry hentry => ?_
  obtain ⟨hne, hbreaks⟩ := hwords entry hentry
  obtain ⟨w, word, hword⟩ := List.exists_cons_of_ne_nil hne
  rw [hword, List.tail_cons] at hbreaks
  dsimp only
  rw [hword, startsWithWord_cons, startsWithWord_cons,
    startsWithWord_append_eq fun d hd => hbreaks d (h d hd)]

/-- A name or a number is the same whether or not its end follows the text. -/
theorem tokenTail?_append_of_endsWord {c : Char} {text rest : List Char}
    (hc : isNameStart c = true ∨ isAsciiDigit c = true) (h : EndsWord rest) :
    tokenTail? c (text ++ rest) = tokenTail? c text := by
  have hmarked : startsWithWord userMarkerText.toList (c :: (text ++ rest)) =
      startsWithWord userMarkerText.toList (c :: text) :=
    @startsWithWord_append_eq _ (c :: text) rest (h.notMem (by decide))
  rw [tokenTail?, tokenTail?, hmarked, wordTail_append_eq h, numberTail_append_eq h]
  by_cases hstart : isNameStart c = true
  · rw [if_pos hstart, if_pos hstart]
  · have hdigit := hc.resolve_left hstart
    rw [if_neg hstart, if_neg hstart, if_pos hdigit, if_pos hdigit]

/-- A token that is no string is the same whether or not a break follows the text. -/
theorem tokenTail?_append_eq {c : Char} {text rest : List Char} (hc : c ≠ '"') (h : Breaks rest) :
    tokenTail? c (text ++ rest) = tokenTail? c text := by
  by_cases hword : isNameStart c = true ∨ isAsciiDigit c = true
  · exact tokenTail?_append_of_endsWord hword h.endsWord
  · obtain ⟨hstart, hdigit⟩ := not_or.mp hword
    have hquote : ¬(c == '"') = true := by simpa using hc
    rw [tokenTail?, tokenTail?, if_neg hstart, if_neg hstart, if_neg hdigit, if_neg hdigit,
      if_neg hquote, if_neg hquote, find?_operatorWords_append h]

/-- So a name or a number is the same token before what ends a word. -/
theorem tokenTail?_append {c : Char} {rest tail : List Char} {kind : TokenKind}
    (h : tokenTail? c rest = some (kind, tail)) (hc : isNameStart c = true ∨ isAsciiDigit c = true)
    {rest' : List Char} (hrest' : EndsWord rest') :
    tokenTail? c (tail ++ rest') = some (kind, tail) := by
  have hkind : kind ≠ .unclosedString := by
    rintro rfl
    obtain rfl := eq_quote_of_tokenTail? h
    revert hc
    decide
  rw [tokenTail?_append_of_endsWord hc hrest']
  exact tokenTail?_of_isPrefix (tokenTail?_isPrefix h) h hkind (List.prefix_refl tail)

end BlockCode
