/- # Spelling by code points

The speller that writes foreign characters by their code points has a spelling for every name
that is not ASCII: what it writes reads as one name, and no target reserves it. Resolving the
names of a program with it therefore never stops, and every name that is not ASCII comes out with
a spelling.
-/

import Mathlib.Data.List.Basic
import BlockCode.Names.Session
import BlockCode.Proofs.Names.Segments

namespace BlockCode

theorem lt_of_isAsciiNamePart {c : Char} (h : isAsciiNamePart c = true) : c.toNat < 128 := by
  simp only [isAsciiNamePart, isAsciiLetter, isAsciiDigit, Bool.or_eq_true, Bool.and_eq_true,
    decide_eq_true_eq, beq_iff_eq] at h
  rcases h with (h | h) | rfl
  · have hz : 'z'.toNat = 122 := rfl
    have hZ : 'Z'.toNat = 90 := rfl
    omega
  · have hnine : '9'.toNat = 57 := rfl
    omega
  · decide

/-- What holds of the code points of ASCII name characters holds of the characters. -/
theorem forall_isAsciiNamePart {P : Char → Prop}
    (h : ∀ n < 128, isAsciiNamePart (Char.ofNat n) = true → P (Char.ofNat n)) {c : Char}
    (hc : isAsciiNamePart c = true) : P c := by
  have hlt := lt_of_isAsciiNamePart hc
  rw [← Char.ofNat_toNat c] at hc ⊢
  exact h _ hlt hc

/-- The characters of ASCII names may stand in every name. -/
theorem isNamePart_of_isAsciiNamePart {c : Char} (h : isAsciiNamePart c = true) :
    isNamePart c = true :=
  forall_isAsciiNamePart (P := fun c => isNamePart c = true) (by decide) h

/-- They are no white space. -/
theorem isBlank_of_isAsciiNamePart {c : Char} (h : isAsciiNamePart c = true) :
    isBlank c = false :=
  forall_isAsciiNamePart (P := fun c => isBlank c = false) (by decide) h

theorem ne_of_isAsciiNamePart {c d : Char} (h : isAsciiNamePart c = true)
    (hd : isAsciiNamePart d = false) : c ≠ d := by
  rintro rfl
  rw [h] at hd
  cases hd

theorem isAsciiNamePart_of_isAsciiLetter {c : Char} (h : isAsciiLetter c = true) :
    isAsciiNamePart c = true := by
  rw [isAsciiNamePart, h]
  rfl

/-- A name may start with an ASCII letter. -/
theorem isNameStart_of_isAsciiLetter {c : Char} (h : isAsciiLetter c = true) :
    isNameStart c = true :=
  forall_isAsciiNamePart (P := fun c => isAsciiLetter c = true → isNameStart c = true) (by decide)
    (isAsciiNamePart_of_isAsciiLetter h) h

theorem dropWhile_eq_self {p : Char → Bool} {text : List Char} (h : ∀ c ∈ text, p c = false) :
    text.dropWhile p = text := by
  cases text with
  | nil => rfl
  | cons c text => rw [List.dropWhile_cons, h c (.head _), if_neg Bool.false_ne_true]

/-- Nothing is trimmed off a text without white space. -/
theorem trimChars_eq_self {text : List Char} (h : ∀ c ∈ text, isBlank c = false) :
    trimChars text = text := by
  rw [trimChars, dropWhile_eq_self h, dropWhile_eq_self, List.reverse_reverse]
  intro c hc
  exact h c (List.mem_reverse.mp hc)

/-- A word with a character that the text lacks does not start the text. -/
theorem afterWord?_eq_none {word text : List Char} {d : Char} (hd : d ∈ word) (h : d ∉ text) :
    afterWord? word text = none := by
  induction word generalizing text with
  | nil => cases hd
  | cons w word ih =>
      cases text with
      | nil => rfl
      | cons c text =>
          rw [afterWord?]
          split
          · rename_i heq
            rw [List.mem_cons, not_or] at h
            refine ih ?_ h.2
            rcases List.mem_cons.mp hd with rfl | hd
            · exact absurd (eq_of_beq heq) h.1
            · exact hd
          · rfl

theorem nameTail_eq_self {text : List Char} (h : ∀ c ∈ text, isNamePart c = true) :
    nameTail text = text := by
  induction text with
  | nil => rfl
  | cons c text ih =>
      rw [nameTail, if_pos (h c (.head _)), ih fun d hd => h d (.tail _ hd)]

/-- A word of name characters goes on to its end. -/
theorem tokenTail?_name {c : Char} {rest : List Char} (hc : isNameStart c = true)
    (hrest : ∀ d ∈ rest, isNamePart d = true) :
    tokenTail? c rest = some (wordKind (c :: rest), rest) := by
  have hnone {d : Char} (hd : isNameStart d = false ∧ isNamePart d = false) : d ∉ c :: rest := by
    rw [List.mem_cons, not_or]
    constructor
    · rintro rfl
      exact Bool.false_ne_true (hd.1.symm.trans hc)
    · exact fun hmem => Bool.false_ne_true (hd.2.symm.trans (hrest d hmem))
  have huser : startsWithWord userMarkerText.toList (c :: rest) = false := by
    apply Option.isSome_eq_false_iff.mpr
    rw [afterWord?_eq_none (show ':' ∈ userMarkerText.toList by decide) (hnone (by decide))]
    rfl
  have hword : wordTail c rest = rest := by
    rw [wordTail, afterWord?_eq_none (show '.' ∈ dottedUserWord by decide) (hnone (by decide))]
    exact nameTail_eq_self hrest
  rw [tokenTail?, if_pos hc, huser]
  dsimp only
  rw [hword]

/-- An ASCII word that starts as a name does is read as one token. -/
theorem lex_ofList_name {c : Char} {rest : List Char} (hc : isNameStart c = true)
    (hpart : ∀ d ∈ c :: rest, isAsciiNamePart d = true) :
    lex (String.ofList (c :: rest)) =
      .ok [⟨wordKind (c :: rest), ⟨0, utf8Length (c :: rest)⟩, String.ofList (c :: rest)⟩] := by
  have hgap : isTokenGap c = false :=
    forall_isAsciiNamePart (P := fun c => isTokenGap c = false) (by decide) (hpart c (.head _))
  have htail := tokenTail?_name hc fun d hd => isNamePart_of_isAsciiNamePart (hpart d (.tail _ hd))
  rw [lex, String.toList_ofList, lexFrom, hgap, if_neg Bool.false_ne_true, htail]
  dsimp only
  rw [List.drop_length, lexFrom, Nat.zero_add]
  rfl

/-- What stands for the mark in front of a code point. -/
def codePointMark : List Char := ['_', 'u']

/-- No reserved word has the mark in it. -/
theorem isReserved_of_isInfix {text : List Char} (hblank : ∀ c ∈ text, isBlank c = false)
    (hmark : codePointMark <:+: text) : isReserved (String.ofList text) = false := by
  have hwords : ∀ word ∈ reservedWords ++ generatedNames, ¬ codePointMark <:+: word.toList := by
    decide +kernel
  have hlower : codePointMark <:+: text.map lowerToAscii := by
    have hmap := hmark.map lowerToAscii
    exact hmap
  rw [isReserved, String.toList_ofList, trimChars_eq_self hblank, ← Bool.not_eq_true,
    Bool.or_eq_true, List.contains_iff_mem, List.contains_iff_mem,
    ← List.mem_append]
  intro hmem
  apply hwords _ hmem
  rw [String.toList_ofList]
  exact hlower

/-- Only ASCII letters have ASCII letters as their lower case. -/
theorem isAsciiLetter_of_toLower {c : Char} (h : isAsciiLetter c.toLower = true) :
    isAsciiLetter c = true := by
  unfold Char.toLower at h
  split at h
  · rename_i hupper
    have hA : 'A'.toNat ≤ c.toNat := UInt32.le_iff_toNat_le.mp hupper.1
    have hZ : c.toNat ≤ 'Z'.toNat := UInt32.le_iff_toNat_le.mp hupper.2
    rw [isAsciiLetter, decide_eq_true hA, decide_eq_true hZ, Bool.and_true, Bool.or_true]
  · exact h

theorem forall_isAsciiLetter_of_lowerAscii {word : String}
    (h : (lowerAscii word).toList.all isAsciiLetter = true) :
    ∀ c ∈ word.toList, isAsciiLetter c = true := by
  intro c hc
  apply isAsciiLetter_of_toLower
  apply List.all_eq_true.mp h
  rw [lowerAscii, String.toList_ofList]
  exact List.mem_map_of_mem hc

/-- A word of letters is reserved in any case. -/
theorem isReserved_of_lowerAscii {word : String}
    (hletters : ∀ c ∈ word.toList, isAsciiLetter c = true)
    (h : lowerAscii word ∈ reservedWords) : isReserved word = true := by
  have hlower : word.toList.map lowerToAscii = word.toList.map Char.toLower := by
    apply List.map_congr_left
    intro c hc
    rw [lowerToAscii, if_neg]
    intro hkelvin
    have hletter := hletters c hc
    rw [eq_of_beq hkelvin] at hletter
    exact absurd hletter (by decide)
  rw [isReserved, trimChars_eq_self fun c hc =>
    isBlank_of_isAsciiNamePart (isAsciiNamePart_of_isAsciiLetter (hletters c hc)), hlower]
  change (reservedWords.contains (lowerAscii word) || _) = true
  rw [List.contains_iff_mem.mpr h, Bool.true_or]

/-- No keyword is free. -/
theorem wordKind_of_isReserved {word : List Char} (h : isReserved (String.ofList word) = false) :
    wordKind word = .name := by
  have hkeywords : ∀ entry ∈ keywords,
      entry.1.toList.all isAsciiLetter = true ∧ entry.1 ∈ reservedWords := by
    decide +kernel
  have hfind : (keywords.find? fun entry =>
      entry.1 == lowerAscii (String.ofList word)) = none := by
    rw [List.find?_eq_none]
    intro entry hentry heq
    obtain ⟨hletters, hreserved⟩ := hkeywords entry hentry
    rw [eq_of_beq heq] at hletters hreserved
    rw [isReserved_of_lowerAscii (forall_isAsciiLetter_of_lowerAscii hletters) hreserved] at h
    cases h
  rw [wordKind, hfind]
  rfl

/-- No keyword has an underscore. -/
theorem wordKind_of_mem {word : List Char} (h : '_' ∈ word) : wordKind word = .name := by
  have hkeywords : ∀ entry ∈ keywords, '_' ∉ entry.1.toList := by
    decide +kernel
  have hfind : (keywords.find? fun entry =>
      entry.1 == lowerAscii (String.ofList word)) = none := by
    rw [List.find?_eq_none]
    intro entry hentry heq
    apply hkeywords entry hentry
    rw [eq_of_beq heq, lowerAscii, String.toList_ofList, String.toList_ofList]
    exact List.mem_map_of_mem (f := Char.toLower) h
  rw [wordKind, hfind]
  rfl

/-- An ASCII word that starts as a name does is a variable name, unless it is a keyword or
reserved. -/
theorem isVariableName_ofList {c : Char} {rest : List Char} (hc : isNameStart c = true)
    (hpart : ∀ d ∈ c :: rest, isAsciiNamePart d = true) (hkind : wordKind (c :: rest) = .name)
    (hfree : isReserved (String.ofList (c :: rest)) = false) :
    isVariableName (String.ofList (c :: rest)) = true := by
  have hblank : ∀ d ∈ c :: rest, isBlank d = false := fun d hd =>
    isBlank_of_isAsciiNamePart (hpart d hd)
  have hdot : (c :: rest).contains '.' = false := by
    rw [← Bool.not_eq_true, List.contains_iff_mem]
    intro hmem
    exact ne_of_isAsciiNamePart (hpart _ hmem) (by decide) rfl
  have htrim : trim (String.ofList (c :: rest)) = String.ofList (c :: rest) := by
    rw [trim, String.toList_ofList, trimChars_eq_self hblank]
  have htoken : isSingleToken (String.ofList (c :: rest)) .name = true := by
    rw [isSingleToken, htrim, lex_ofList_name hc hpart, hkind]
    simp
  rw [isVariableName, htoken, hfree, String.toList_ofList, trimChars_eq_self hblank, hdot]
  rfl

/-- An ASCII word that starts with a letter and has the mark in it can be a spelling. -/
theorem isSpelling_of_isInfix {c : Char} {rest : List Char} (hc : isAsciiLetter c = true)
    (hrest : ∀ d ∈ rest, isAsciiNamePart d = true) (hmark : codePointMark <:+: c :: rest) :
    isSpelling (String.ofList (c :: rest)) = true := by
  have hpart : ∀ d ∈ c :: rest, isAsciiNamePart d = true := by
    rw [List.forall_mem_cons]
    exact ⟨isAsciiNamePart_of_isAsciiLetter hc, hrest⟩
  have hascii : isAsciiText (String.ofList (c :: rest)) = true := by
    rw [isAsciiText, String.toList_ofList, List.all_eq_true]
    intro d hd
    exact decide_eq_true (lt_of_isAsciiNamePart (hpart d hd))
  have hfree : isReserved (String.ofList (c :: rest)) = false :=
    isReserved_of_isInfix (fun d hd => isBlank_of_isAsciiNamePart (hpart d hd)) hmark
  rw [isSpelling, hascii, isVariableName_ofList (isNameStart_of_isAsciiLetter hc) hpart
    (wordKind_of_mem (hmark.subset (.head _))) hfree]
  rfl

/-- Digits in a base up to sixteen may stand in names. -/
theorem isAsciiNamePart_of_mem_toDigits {base n : Nat} (hbase : 1 < base) (hle : base ≤ 16)
    {c : Char} (h : c ∈ Nat.toDigits base n) : isAsciiNamePart c = true := by
  have hdigit : ∀ d < 16, isAsciiNamePart d.digitChar = true := by
    decide +kernel
  induction n using Nat.strongRecOn with
  | ind n ih =>
      rw [Nat.toDigits_eq_if hbase] at h
      split at h
      · rename_i hlt
        rw [List.mem_singleton.mp h]
        exact hdigit n (by omega)
      · rename_i hge
        rw [List.mem_append, List.mem_singleton] at h
        rcases h with h | rfl
        · exact ih (n / base) (Nat.div_lt_self (by omega) hbase) h
        · exact hdigit _ (Nat.lt_of_lt_of_le (Nat.mod_lt n (by omega)) hle)

theorem isAsciiNamePart_of_mem_toString {n : Nat} {c : Char} (h : c ∈ (toString n).toList) :
    isAsciiNamePart c = true := by
  rw [show toString n = String.ofList (Nat.toDigits 10 n) from rfl, String.toList_ofList] at h
  exact isAsciiNamePart_of_mem_toDigits (by decide) (by decide) h

/-- What a character of a name becomes. -/
def writtenChar (c : Char) : List Char :=
  if isAsciiNamePart c then [c] else '_' :: 'u' :: hexDigits c.toNat

theorem spellByCodePoints_eq (name : String) :
    spellByCodePoints name = String.ofList
      (if (name.toList.flatMap writtenChar).head?.any isAsciiLetter then
        name.toList.flatMap writtenChar
      else 'v' :: name.toList.flatMap writtenChar) := rfl

theorem isAsciiNamePart_of_mem_writtenChar {c d : Char} (h : d ∈ writtenChar c) :
    isAsciiNamePart d = true := by
  by_cases hc : isAsciiNamePart c = true
  · rw [writtenChar, if_pos hc, List.mem_singleton] at h
    rw [h]
    exact hc
  · rw [writtenChar, if_neg hc, List.mem_cons, List.mem_cons] at h
    rcases h with rfl | rfl | h
    · decide
    · decide
    · exact isAsciiNamePart_of_mem_toDigits (by decide) (by decide) h

/-- A foreign character leaves the mark. -/
theorem codePointMark_isInfix {text : List Char} {c : Char} (hmem : c ∈ text)
    (hc : isAsciiNamePart c = false) : codePointMark <:+: text.flatMap writtenChar := by
  have hmark : codePointMark <+: writtenChar c := by
    rw [writtenChar, hc, if_neg Bool.false_ne_true]
    exact List.prefix_append codePointMark (hexDigits c.toNat)
  exact hmark.isInfix.trans (List.infix_flatMap_of_mem hmem writtenChar)

/-- A name that is not ASCII has a spelling, which starts with a letter. -/
theorem spellByCodePoints_spec {name : String} (h : isAsciiText name = false) :
    isSpelling (spellByCodePoints name) = true ∧
      (spellByCodePoints name).toList.head?.any isAsciiLetter = true := by
  have hpart : ∀ d ∈ name.toList.flatMap writtenChar, isAsciiNamePart d = true := by
    intro d hd
    obtain ⟨c, _, hmem⟩ := List.mem_flatMap.mp hd
    exact isAsciiNamePart_of_mem_writtenChar hmem
  have hmark : codePointMark <:+: name.toList.flatMap writtenChar := by
    rw [isAsciiText, List.all_eq_false] at h
    obtain ⟨c, hmem, hc⟩ := h
    apply codePointMark_isInfix hmem
    rw [← Bool.not_eq_true]
    intro hascii
    exact hc (decide_eq_true (lt_of_isAsciiNamePart hascii))
  rw [spellByCodePoints_eq]
  cases hspelled : name.toList.flatMap writtenChar with
  | nil =>
      rw [hspelled] at hmark
      cases List.infix_nil.mp hmark
  | cons c rest =>
      rw [hspelled] at hpart hmark
      rw [List.head?_cons, Option.any_some]
      by_cases hc : isAsciiLetter c = true
      · rw [if_pos hc, String.toList_ofList]
        exact ⟨isSpelling_of_isInfix hc (fun d hd => hpart d (.tail _ hd)) hmark, hc⟩
      · rw [if_neg hc, String.toList_ofList]
        exact ⟨isSpelling_of_isInfix (by decide) hpart
          (List.infix_cons_iff.mpr (.inr hmark)), rfl⟩

/-- The speller that writes code points has a spelling for every name that is not ASCII. -/
theorem spell_codePointSpeller {name : String} (h : isAsciiText name = false) :
    codePointSpeller.spell name = .ok (spellByCodePoints name) := by
  rw [Speller.spell, codePointSpeller]
  dsimp only
  rw [if_pos (spellByCodePoints_spec h).1]

/-- Spelling by code points leaves only ASCII name characters. -/
theorem isAsciiNamePart_of_mem_spellByCodePoints {name : String} {c : Char}
    (h : c ∈ (spellByCodePoints name).toList) : isAsciiNamePart c = true := by
  have hpart : ∀ d ∈ name.toList.flatMap writtenChar, isAsciiNamePart d = true := by
    intro d hd
    obtain ⟨c, _, hmem⟩ := List.mem_flatMap.mp hd
    exact isAsciiNamePart_of_mem_writtenChar hmem
  rw [spellByCodePoints_eq, String.toList_ofList] at h
  split at h
  · exact hpart c h
  · rcases List.mem_cons.mp h with rfl | h
    · decide
    · exact hpart c h

/-- Numbering a spelling does not change how it starts. -/
theorem head?_numberedSpelling {spelling : String}
    (h : spelling.toList.head?.any isAsciiLetter = true) (k : Nat) :
    (numberedSpelling spelling k).toList.head?.any isAsciiLetter = true := by
  cases k with
  | zero => exact h
  | succ k =>
      rw [numberedSpelling, String.toList_append, String.toList_append, List.append_assoc]
      cases hchars : spelling.toList with
      | nil =>
          rw [hchars] at h
          cases h
      | cons c rest =>
          rw [hchars] at h
          exact h

/-- A number adds only ASCII name characters to a spelling. -/
theorem isAsciiNamePart_of_mem_numberedSpelling {spelling : String}
    (h : ∀ c ∈ spelling.toList, isAsciiNamePart c = true) (k : Nat) :
    ∀ c ∈ (numberedSpelling spelling k).toList, isAsciiNamePart c = true := by
  cases k with
  | zero => exact h
  | succ k =>
      rw [numberedSpelling, String.toList_append, String.toList_append, List.forall_mem_append,
        List.forall_mem_append]
      have hline : isAsciiNamePart '_' = true := by decide
      exact ⟨⟨h, by simpa using hline⟩, fun c => isAsciiNamePart_of_mem_toString⟩

/-- Every spelling starts with a letter. -/
def Spellings.Lettered (spellings : Spellings) : Prop :=
  ∀ entry ∈ spellings, entry.2.toList.head?.any isAsciiLetter = true

/-- Every spelling has only ASCII name characters. -/
def Spellings.Ascii (spellings : Spellings) : Prop :=
  ∀ entry ∈ spellings, ∀ c ∈ entry.2.toList, isAsciiNamePart c = true

theorem Spellings.Lettered.spelling? {spellings : Spellings} (h : spellings.Lettered)
    {name spelling : String} (hname : spellings.spelling? name = some spelling) :
    spelling.toList.head?.any isAsciiLetter = true :=
  spelling?_of_forall (P := fun spelling => spelling.toList.head?.any isAsciiLetter = true) h hname

/-- What numbers keep holds of a spelling that is not taken. -/
theorem freshSpelling_keeps {P : String → Prop}
    (hnumbered : ∀ spelling k, P spelling → P (numberedSpelling spelling k)) {taken : List String}
    {spelling : String} (h : P spelling) : P (freshSpelling taken spelling) := by
  rw [freshSpelling]
  cases hfind : ((List.range (taken.length + 1)).map (numberedSpelling spelling)).find?
      fun candidate => !taken.contains candidate with
  | none => exact h
  | some fresh =>
      obtain ⟨k, _, rfl⟩ := List.mem_map.mp (List.mem_of_find?_eq_some hfind)
      exact hnumbered spelling k h

namespace SpellingSession

section Keeps

variable {P : String → Prop}
  (hspells : ∀ name, isAsciiText name = false → P (spellByCodePoints name))

include hspells

/-- Resolving a name that is not ASCII gives a spelling. What holds of all spellings by code points
and of those that are known goes on holding. -/
theorem resolve_keeps {session : SpellingSession} (hknown : ∀ entry ∈ session.known, P entry.2)
    {name : String} (hname : isAsciiText name = false) :
    ∃ spelling session', session.resolve codePointSpeller name = (.ok spelling, session') ∧
      P spelling ∧ ∀ entry ∈ session'.known, P entry.2 := by
  rw [resolve]
  cases hget : session.get? name with
  | some spelling =>
      exact ⟨spelling, session, rfl, Spellings.spelling?_of_forall hknown hget, hknown⟩
  | none =>
      rw [spell_codePointSpeller hname]
      refine ⟨_, _, rfl, hspells name hname, ?_⟩
      intro entry hentry
      rw [insert, List.mem_append, List.mem_filter, List.mem_singleton] at hentry
      rcases hentry with ⟨hentry, _⟩ | rfl
      · exact hknown entry hentry
      · exact hspells name hname

/-- Resolving names that are not ASCII never stops, and spells each of them. What holds of all
spellings by code points, numbered or not, holds of the spellings. -/
theorem resolveAll_keeps (hnumbered : ∀ spelling k, P spelling → P (numberedSpelling spelling k))
    {session : SpellingSession} (hknown : ∀ entry ∈ session.known, P entry.2)
    {taken names : List String} (hnames : ∀ name ∈ names, isAsciiText name = false) :
    ∃ spellings, (session.resolveAll codePointSpeller taken names).1 = .ok spellings ∧
      spellings.map Prod.fst = names ∧ ∀ entry ∈ spellings, P entry.2 := by
  induction names generalizing session taken with
  | nil => exact ⟨[], rfl, rfl, by simp⟩
  | cons name names ih =>
      obtain ⟨spelling, session', hresolve, hspelling, hknown'⟩ :=
        resolve_keeps hspells hknown (hnames name (.head _))
      have htail : ∀ other ∈ names, isAsciiText other = false := fun other hother =>
        hnames other (.tail _ hother)
      obtain ⟨spellings, hrest, hnames', hspellings⟩ :
          ∃ spellings, (session'.resolveAll codePointSpeller
              (freshSpelling taken spelling :: taken) names).1 = .ok spellings ∧
            spellings.map Prod.fst = names ∧ ∀ entry ∈ spellings, P entry.2 := ih hknown' htail
      refine ⟨(name, freshSpelling taken spelling) :: spellings, ?_, ?_, ?_⟩
      · rw [resolveAll, hresolve]
        dsimp only
        rw [hrest]
        rfl
      · rw [List.map_cons, hnames']
      · rw [List.forall_mem_cons]
        exact ⟨freshSpelling_keeps hnumbered hspelling, hspellings⟩

end Keeps

/-- Resolving names that are not ASCII never stops, and spells each of them with a letter in
front. -/
theorem resolveAll_codePointSpeller {session : SpellingSession}
    (hknown : session.known.Lettered) {taken names : List String}
    (hnames : ∀ name ∈ names, isAsciiText name = false) :
    ∃ spellings, (session.resolveAll codePointSpeller taken names).1 = .ok spellings ∧
      spellings.map Prod.fst = names ∧ spellings.Lettered :=
  resolveAll_keeps (P := fun spelling => spelling.toList.head?.any isAsciiLetter = true)
    (fun _ hname => (spellByCodePoints_spec hname).2) (fun _ k h => head?_numberedSpelling h k)
    hknown hnames

end SpellingSession

/-- The names of a program that are not ASCII are spelled, each with a letter in front and with
ASCII name characters only. -/
theorem exists_spellingsFor_codePointSpeller (program : Block) : ∃ spellings,
    (({} : SpellingSession).resolveProgram codePointSpeller program).1 = .ok spellings ∧
      spellings.map Prod.fst = program.nonAsciiIdentifiers ∧ spellings.Lettered ∧
        spellings.Ascii := by
  obtain ⟨spellings, hresolve, hnames, hall⟩ : ∃ spellings,
      (({} : SpellingSession).resolveProgram codePointSpeller program).1 = .ok spellings ∧
        spellings.map Prod.fst = program.nonAsciiIdentifiers ∧
          ∀ entry ∈ spellings, entry.2.toList.head?.any isAsciiLetter = true ∧
            ∀ c ∈ entry.2.toList, isAsciiNamePart c = true := by
    apply SpellingSession.resolveAll_keeps (P := fun spelling =>
      spelling.toList.head?.any isAsciiLetter = true ∧
        ∀ c ∈ spelling.toList, isAsciiNamePart c = true)
    · exact fun _ hname => ⟨(spellByCodePoints_spec hname).2,
        fun _ => isAsciiNamePart_of_mem_spellByCodePoints⟩
    · exact fun _ k h => ⟨head?_numberedSpelling h.1 k,
        isAsciiNamePart_of_mem_numberedSpelling h.2 k⟩
    · simp
    · intro name hname
      simpa [Block.nonAsciiIdentifiers] using (List.mem_filter.mp hname).2
  exact ⟨spellings, hresolve, hnames, fun entry hentry => (hall entry hentry).1,
    fun entry hentry => (hall entry hentry).2⟩

end BlockCode
