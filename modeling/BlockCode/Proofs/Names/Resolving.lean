/- # What resolving names gives

The names of a program are resolved one after the other. A spelling that is taken gets a number;
numbers make spellings differ, so one of the first that are tried is free. Hence distinct names
get distinct spellings, none of them is an identifier of the program, and who asks again with what
is known by then gets the same spellings and asks no speller.

A proposal is accepted with white space around it. The white space stays in the spelling, and with
a number behind it what comes out is no variable name any more. Where there is none, a spelling is
one, numbered or not.
-/

import Mathlib.Data.List.Nodup
import Mathlib.Data.List.Perm.Subperm
import BlockCode.Proofs.Form.Plain
import BlockCode.Proofs.Names.Reserved
import BlockCode.Proofs.Text.Digits

namespace BlockCode

/-! ## Numbers behind spellings -/

theorem numberedSpelling_injective (spelling : String) :
    Function.Injective (numberedSpelling spelling) := by
  have hlonger (k : Nat) : numberedSpelling spelling (k + 1) ≠ spelling := by
    intro h
    have hlength := congrArg String.length h
    rw [numberedSpelling, String.length_append, String.length_append] at hlength
    have hline : "_".length = 1 := rfl
    omega
  intro j k h
  cases j with
  | zero =>
      cases k with
      | zero => rfl
      | succ k => exact absurd h.symm (hlonger k)
  | succ j =>
      cases k with
      | zero => exact absurd h (hlonger j)
      | succ k =>
          have hnumber : j + 2 = k + 2 := by
            refine toString_injective (String.toList_injective ?_)
            simpa [numberedSpelling] using congrArg String.toList h
          omega

/-- Among as many numbers as spellings are taken, and one more, there is one that is free. The
first is given. -/
theorem freshSpelling_spec (taken : List String) (spelling : String) :
    ∃ k ≤ taken.length, freshSpelling taken spelling = numberedSpelling spelling k ∧
      numberedSpelling spelling k ∉ taken ∧
      ∀ j < k, numberedSpelling spelling j ∈ taken := by
  have hfree : ∃ k < taken.length + 1, numberedSpelling spelling k ∉ taken := by
    by_contra! hall
    have hsub : (List.range (taken.length + 1)).map (numberedSpelling spelling) ⊆ taken := by
      intro candidate hmem
      obtain ⟨k, hk, rfl⟩ := List.mem_map.mp hmem
      exact hall k (List.mem_range.mp hk)
    have hle := ((List.nodup_range.map (numberedSpelling_injective spelling)).subperm
      hsub).length_le
    rw [List.length_map, List.length_range] at hle
    omega
  rw [freshSpelling, List.find?_map]
  cases hfind : (List.range (taken.length + 1)).find?
      ((fun candidate => !taken.contains candidate) ∘ numberedSpelling spelling) with
  | none =>
      obtain ⟨k, hk, hnot⟩ := hfree
      have hmem := List.find?_range_eq_none.mp hfind k hk
      simp only [Function.comp_apply, Bool.not_not, List.contains_iff_mem] at hmem
      exact absurd hmem hnot
  | some k =>
      obtain ⟨hnot, hk, hbefore⟩ := List.find?_range_eq_some.mp hfind
      refine ⟨k, Nat.lt_succ_iff.mp (List.mem_range.mp hk), rfl, ?_, ?_⟩
      · simpa using hnot
      · intro j hj
        simpa using hbefore j hj

/-! ## The names of a program -/

theorem Block.mem_nonAsciiIdentifiers {program : Block} {name : String} :
    name ∈ program.nonAsciiIdentifiers ↔
      name ∈ program.identifiers ∧ isAsciiText name = false := by
  rw [nonAsciiIdentifiers, List.mem_filter, Bool.not_eq_true']

/-! ## What is known -/

namespace SpellingSession

variable {session session' later : SpellingSession} {speller : Speller}

/-- Everything that the one session knows the other one knows as well. -/
def Within (session session' : SpellingSession) : Prop :=
  ∀ name spelling, session.get? name = some spelling → session'.get? name = some spelling

theorem get?_insert_self (session : SpellingSession) (name spelling : String) :
    (session.insert name spelling).get? name = some spelling := by
  have hnone : (session.known.filter fun entry => entry.1 != name).lookup name = none := by
    rw [← Option.not_isSome_iff_eq_none, List.lookup_isSome_iff]
    rintro ⟨entry, hentry, heq⟩
    have hne := (List.mem_filter.mp hentry).2
    rw [eq_of_beq heq] at hne
    simp at hne
  rw [get?, Spellings.spelling?, insert, List.lookup_append, hnone]
  simp

/-- Nothing that is known is lost when a name is added that was not known. -/
theorem within_insert {name : String} (h : session.get? name = none) (spelling : String) :
    session.Within (session.insert name spelling) := by
  intro other found hfound
  have hkept : (session.known.filter fun entry => entry.1 != name) = session.known := by
    rw [List.filter_eq_self]
    intro entry hentry
    rw [bne_iff_ne]
    rintro rfl
    rw [get?, Spellings.spelling?, ← Option.not_isSome_iff_eq_none, List.lookup_isSome_iff] at h
    exact h ⟨entry, hentry, beq_self_eq_true entry.1⟩
  rw [get?, Spellings.spelling?] at hfound
  rw [get?, Spellings.spelling?, insert, hkept, List.lookup_append, hfound]
  rfl

/-- A name that was resolved is known, and nothing is lost. -/
theorem resolve_known {name spelling : String}
    (h : session.resolve speller name = (.ok spelling, session')) :
    session'.get? name = some spelling ∧ session.Within session' := by
  rw [resolve] at h
  split at h
  · next hget =>
    cases h
    exact ⟨hget, fun _ _ hfound => hfound⟩
  · next hget =>
    split at h
    · next spelling' _ =>
      cases h
      exact ⟨get?_insert_self _ name spelling, within_insert hget spelling⟩
    · cases h

/-- A name that is known is resolved as it was before, by any speller. -/
theorem resolve_of_get? {name spelling : String} (h : session.get? name = some spelling)
    (speller : Speller) : session.resolve speller name = (.ok spelling, session) := by
  rw [resolve, h]

/-! ## A whole run -/

/-- One name is resolved before the others. -/
theorem resolveAll_cons_eq_ok_iff {taken : List String} {name : String} {names : List String}
    {spellings : Spellings} :
    session.resolveAll speller taken (name :: names) = (.ok spellings, session') ↔
      ∃ base between rest, session.resolve speller name = (.ok base, between) ∧
        between.resolveAll speller (freshSpelling taken base :: taken) names =
          (.ok rest, session') ∧
        spellings = (name, freshSpelling taken base) :: rest := by
  constructor
  · intro h
    rw [resolveAll] at h
    split at h
    · cases h
    · next base between hresolve =>
      dsimp only at h
      obtain ⟨hrest, rfl⟩ := Prod.mk.inj h
      obtain ⟨rest, hok, rfl⟩ := map_eq_ok_iff.mp hrest
      exact ⟨base, between, rest, hresolve, Prod.ext hok rfl, rfl⟩
  · rintro ⟨base, between, rest, hresolve, hrest, rfl⟩
    rw [resolveAll, hresolve]
    dsimp only
    rw [hrest]
    rfl

/-- All names get spellings, in their order. -/
theorem map_fst_of_resolveAll {taken names : List String} {spellings : Spellings}
    (h : session.resolveAll speller taken names = (.ok spellings, session')) :
    spellings.map Prod.fst = names := by
  induction names generalizing session taken spellings with
  | nil =>
      cases h
      rfl
  | cons name names ih =>
      obtain ⟨base, between, rest, -, hrest, rfl⟩ := resolveAll_cons_eq_ok_iff.mp h
      rw [List.map_cons, ih hrest]

/-- No spelling is taken, and none is given twice. -/
theorem nodup_of_resolveAll {taken names : List String} {spellings : Spellings}
    (h : session.resolveAll speller taken names = (.ok spellings, session')) :
    (spellings.map Prod.snd).Nodup ∧ ∀ entry ∈ spellings, entry.2 ∉ taken := by
  induction names generalizing session taken spellings with
  | nil =>
      cases h
      exact ⟨List.nodup_nil, List.forall_mem_nil _⟩
  | cons name names ih =>
      obtain ⟨base, between, rest, -, hrest, rfl⟩ := resolveAll_cons_eq_ok_iff.mp h
      obtain ⟨hnodup, hapart⟩ := ih hrest
      obtain ⟨k, -, hfresh, hnot, -⟩ := freshSpelling_spec taken base
      refine ⟨List.nodup_cons.mpr ⟨?_, hnodup⟩, List.forall_mem_cons.mpr ⟨?_, ?_⟩⟩
      · intro hmem
        obtain ⟨entry, hentry, heq⟩ := List.mem_map.mp hmem
        exact hapart entry hentry (heq ▸ .head _)
      · rw [hfresh]
        exact hnot
      · exact fun entry hentry htaken => hapart entry hentry (.tail _ htaken)

/-- Every spelling that is given is a numbering of the one that is known of its name. -/
theorem known_of_resolveAll {taken names : List String} {spellings : Spellings}
    (h : session.resolveAll speller taken names = (.ok spellings, session')) :
    session.Within session' ∧ ∀ entry ∈ spellings, ∃ base k,
      session'.get? entry.1 = some base ∧ entry.2 = numberedSpelling base k := by
  induction names generalizing session taken spellings with
  | nil =>
      cases h
      exact ⟨fun _ _ hfound => hfound, List.forall_mem_nil _⟩
  | cons name names ih =>
      obtain ⟨base, between, rest, hresolve, hrest, rfl⟩ := resolveAll_cons_eq_ok_iff.mp h
      obtain ⟨hwithin, hknown⟩ := ih hrest
      obtain ⟨hname, hbetween⟩ := resolve_known hresolve
      obtain ⟨k, -, hfresh, -, -⟩ := freshSpelling_spec taken base
      exact ⟨fun other found hfound => hwithin other found (hbetween other found hfound),
        List.forall_mem_cons.mpr ⟨⟨base, k, hwithin name base hname, hfresh⟩, hknown⟩⟩

/-- Who knows as much as is known after the run gets the same spellings, by any speller and without
asking it. -/
theorem resolveAll_again {taken names : List String} {spellings : Spellings}
    (h : session.resolveAll speller taken names = (.ok spellings, session'))
    (hlater : session'.Within later) (speller' : Speller) :
    later.resolveAll speller' taken names = (.ok spellings, later) := by
  induction names generalizing session taken spellings with
  | nil =>
      cases h
      rfl
  | cons name names ih =>
      obtain ⟨base, between, rest, hresolve, hrest, rfl⟩ := resolveAll_cons_eq_ok_iff.mp h
      have hname : later.get? name = some base :=
        hlater name base ((known_of_resolveAll hrest).1 name base (resolve_known hresolve).1)
      exact resolveAll_cons_eq_ok_iff.mpr
        ⟨base, later, rest, resolve_of_get? hname speller', ih hrest, rfl⟩

/-- What holds of accepted proposals and of what is known goes on holding of what is known. -/
theorem forall_known_of_resolveAll {P : String → Prop}
    (hspell : ∀ name spelling, speller.spell name = .ok spelling → P spelling)
    {taken names : List String} {spellings : Spellings}
    (h : session.resolveAll speller taken names = (.ok spellings, session'))
    (hknown : ∀ entry ∈ session.known, P entry.2) : ∀ entry ∈ session'.known, P entry.2 := by
  induction names generalizing session taken spellings with
  | nil =>
      cases h
      exact hknown
  | cons name names ih =>
      obtain ⟨base, between, rest, hresolve, hrest, -⟩ := resolveAll_cons_eq_ok_iff.mp h
      exact ih hrest (resolve_forall hspell hknown hresolve).2

end SpellingSession

/-! ## Spellings as variable names -/

theorem isAsciiNamePart_of_isNamePart {c : Char} (hlt : c.toNat < 128) (h : isNamePart c = true) :
    isAsciiNamePart c = true := by
  have hall : ∀ n < 128, isNamePart (Char.ofNat n) = true →
      isAsciiNamePart (Char.ofNat n) = true := by
    decide
  rw [← Char.ofNat_toNat c] at h ⊢
  exact hall _ hlt h

/-- A variable name is a word of name characters, with white space around it. -/
theorem exists_word_of_isVariableName {text : String} (h : isVariableName text = true) :
    ∃ c rest, trimChars text.toList = c :: rest ∧ isNameStart c = true ∧
      ∀ d ∈ c :: rest, isNamePart d = true := by
  have hplain := plainText_trimChars_iff.mpr (plainText_of_isVariableName h)
  rw [isVariableName, Bool.and_eq_true, Bool.and_eq_true, isSingleToken] at h
  obtain ⟨⟨hsingle, hdot⟩, -⟩ := h
  split at hsingle
  · next token hlex =>
    rw [Bool.and_eq_true, beq_iff_eq, beq_iff_eq] at hsingle
    obtain ⟨hkind, htext⟩ := hsingle
    have hword : IsLexeme .name token.text :=
      hkind ▸ isLexeme_of_mem_lexFrom hlex (.head _) (.inl hkind)
    have hchars := hword.isWordChar_of_mem
    obtain ⟨c, rest, hcons, htail⟩ := hword
    have hstart : isNameStart c = true := by
      simpa using (worded_of_tokenTail? (htail [] breaks_nil) default).name rfl
    rw [htext, trim, String.toList_ofList] at hcons hchars
    refine ⟨c, rest, hcons, hstart, fun d hd => ?_⟩
    rw [← hcons] at hd
    have hd' := hchars d hd
    rw [isWordChar, Bool.or_eq_true, Bool.or_eq_true, beq_iff_eq, beq_iff_eq] at hd'
    rcases hd' with (hd' | rfl) | rfl
    · exact hd'
    · simp [hd] at hdot
    · exact absurd (hplain _ hd) (by decide)
  · cases hsingle

theorem mem_numberedSpelling {base : String} {c : Char} (h : c ∈ base.toList) (k : Nat) :
    c ∈ (numberedSpelling base k).toList := by
  cases k with
  | zero => exact h
  | succ k =>
      rw [numberedSpelling, String.toList_append, String.toList_append, List.append_assoc]
      exact List.mem_append_left _ h

/-- A number behind an ASCII variable name makes another one. -/
theorem isVariableName_numberedSpelling {base : String} (h : isSpelling base = true)
    (htrim : trim base = base) (k : Nat) :
    isVariableName (numberedSpelling base k) = true ∧
      trim (numberedSpelling base k) = numberedSpelling base k := by
  obtain ⟨hascii, hname⟩ := Bool.and_eq_true_iff.mp h
  obtain ⟨c, rest, hword, hstart, hpart⟩ := exists_word_of_isVariableName hname
  have hbase : base.toList = c :: rest := by
    rw [← htrim, trim, String.toList_ofList, hword]
  have hasciiPart : ∀ d ∈ base.toList, isAsciiNamePart d = true := by
    intro d hd
    rw [isAsciiText, List.all_eq_true] at hascii
    exact isAsciiNamePart_of_isNamePart (of_decide_eq_true (hascii d hd)) (hpart d (hbase ▸ hd))
  cases k with
  | zero => exact ⟨hname, htrim⟩
  | succ k =>
      have hchars : numberedSpelling base (k + 1) =
          String.ofList (c :: (rest ++ '_' :: (toString (k + 2)).toList)) := by
        rw [← String.toList_inj]
        simp [numberedSpelling, hbase]
      have hparts := isAsciiNamePart_of_mem_numberedSpelling hasciiPart (k + 1)
      have hfree : isReserved (numberedSpelling base (k + 1)) = false := by
        refine isReserved_numberedSpelling ?_ (k + 1)
        rw [isVariableName, Bool.and_eq_true, Bool.not_eq_true'] at hname
        exact hname.2
      rw [hchars, String.toList_ofList] at hparts
      rw [hchars] at hfree ⊢
      refine ⟨isVariableName_ofList hstart hparts (wordKind_of_mem (by simp)) hfree, ?_⟩
      rw [trim, String.toList_ofList,
        trimChars_eq_self fun d hd => isBlank_of_isAsciiNamePart (hparts d hd)]

theorem isAsciiText_numberedSpelling {base : String} (h : isAsciiText base = true) (k : Nat) :
    isAsciiText (numberedSpelling base k) = true := by
  cases k with
  | zero => exact h
  | succ k =>
      rw [isAsciiText, List.all_eq_true] at h ⊢
      rw [numberedSpelling, String.toList_append, String.toList_append]
      intro c hc
      rcases List.mem_append.mp hc with hc | hc
      · rcases List.mem_append.mp hc with hc | hc
        · exact h c hc
        · rw [List.mem_singleton.mp hc]
          decide
      · exact decide_eq_true (lt_of_isAsciiNamePart (isAsciiNamePart_of_mem_toString hc))

/-- Where a proposal has white space around it, that is there in all its numberings, or it makes
them no variable names. -/
theorem isVariableName_numberedSpelling_iff {base : String} (h : isSpelling base = true) (k : Nat) :
    (isVariableName (numberedSpelling base k) = true ∧
        trim (numberedSpelling base k) = numberedSpelling base k) ↔ trim base = base := by
  constructor
  · rintro ⟨hname, htrim⟩
    obtain ⟨c, rest, hword, -, hpart⟩ := exists_word_of_isVariableName hname
    have hchars : (numberedSpelling base k).toList = c :: rest := by
      rw [← htrim, trim, String.toList_ofList, hword]
    have hblank : ∀ d ∈ base.toList, isBlank d = false := by
      intro d hd
      have hd' := mem_numberedSpelling hd k
      rw [hchars] at hd'
      rw [← Bool.not_eq_true]
      intro hd''
      have hnot := isWordChar_of_isBlank hd''
      rw [isWordChar, hpart d hd'] at hnot
      cases hnot
    rw [trim, trimChars_eq_self hblank, String.ofList_toList]
  · exact fun htrim => isVariableName_numberedSpelling h htrim k

/-! ## The spellings of a program -/

/-- The spellings that a session gives the names of a program. -/
structure Spellings.Settled (spellings : Spellings) (session : SpellingSession)
    (program : Block) : Prop where
  /-- The names that are not ASCII have a spelling, and no others. -/
  names : ∀ name, (spellings.spelling? name).isSome = true ↔
    name ∈ program.identifiers ∧ isAsciiText name = false
  /-- Distinct names are spelled differently. -/
  injective : ∀ name name' spelling, spellings.spelling? name = some spelling →
    spellings.spelling? name' = some spelling → name = name'
  /-- A spelling is ASCII, no target reserves it, and the program does not use it itself. -/
  apart : ∀ name spelling, spellings.spelling? name = some spelling →
    isAsciiText spelling = true ∧ isReserved spelling = false ∧ spelling ∉ program.identifiers
  /-- It is the one that is known of the name, or a numbering of it, and then a variable name
  unless the one that is known has white space around it. -/
  known : ∀ name spelling, spellings.spelling? name = some spelling →
    ∃ base k, session.get? name = some base ∧ spelling = numberedSpelling base k ∧
      ((isVariableName spelling = true ∧ trim spelling = spelling) ↔ trim base = base)

namespace SpellingSession

variable {session session' : SpellingSession} {speller : Speller} {program : Block}
  {spellings : Spellings}

theorem isSpelling_of_spell {name spelling : String} (h : speller.spell name = .ok spelling) :
    isSpelling spelling = true := by
  rw [Speller.spell] at h
  split at h
  · cases h
  · split at h
    · next hspelling =>
      cases h
      exact hspelling
    · cases h

theorem settled_of_resolveProgram (hknown : ∀ entry ∈ session.known, isSpelling entry.2 = true)
    (h : session.resolveProgram speller program = (.ok spellings, session')) :
    spellings.Settled session' program := by
  have hnames : spellings.map Prod.fst = program.nonAsciiIdentifiers := map_fst_of_resolveAll h
  obtain ⟨hnodup, hapart⟩ := nodup_of_resolveAll h
  have hbases := (known_of_resolveAll h).2
  have hspellings := forall_known_of_resolveAll (P := fun spelling => isSpelling spelling = true)
    (fun _ _ => isSpelling_of_spell) h hknown
  have hmem {name spelling : String} (hname : spellings.spelling? name = some spelling) :
      (name, spelling) ∈ spellings := by
    obtain ⟨front, behind, hsplit, -⟩ := List.lookup_eq_some_iff.mp hname
    rw [hsplit]
    simp
  have hbase {name spelling : String} (hname : spellings.spelling? name = some spelling) :
      ∃ base k, session'.get? name = some base ∧ spelling = numberedSpelling base k ∧
        isSpelling base = true := by
    obtain ⟨base, k, hget, heq⟩ := hbases _ (hmem hname)
    exact ⟨base, k, hget, heq, Spellings.spelling?_of_forall
      (P := fun spelling => isSpelling spelling = true) hspellings hget⟩
  constructor
  case names =>
    intro name
    rw [← Block.mem_nonAsciiIdentifiers, ← hnames, Spellings.spelling?, List.lookup_isSome_iff]
    simp
  case injective =>
    intro name name' spelling hname hname'
    have heq := List.inj_on_of_nodup_map hnodup (hmem hname) (hmem hname') rfl
    exact congrArg Prod.fst heq
  case apart =>
    intro name spelling hname
    obtain ⟨base, k, -, rfl, hspelling⟩ := hbase hname
    rw [isSpelling, isVariableName, Bool.and_eq_true, Bool.and_eq_true, Bool.not_eq_true']
      at hspelling
    have hascii := isAsciiText_numberedSpelling hspelling.1 k
    refine ⟨hascii, isReserved_numberedSpelling hspelling.2.2 k, fun hused => ?_⟩
    exact hapart _ (hmem hname) (List.mem_filter.mpr ⟨hused, hascii⟩)
  case known =>
    intro name spelling hname
    obtain ⟨base, k, hget, rfl, hspelling⟩ := hbase hname
    exact ⟨base, k, hget, rfl, isVariableName_numberedSpelling_iff hspelling k⟩

/-- Resolving the names of a program tries, for each, at most one number more than there are
spellings taken. The spellings are those of the names that are not ASCII. They are distinct, and
none of them is reserved or an identifier of the program. They are variable names, but for those
whose proposal has white space around it. With what is known by then any speller gives them
again, and none is asked. -/
theorem resolveProgram_settles (hknown : ∀ entry ∈ session.known, isSpelling entry.2 = true) :
    (∀ taken base, ∃ k ≤ taken.length, freshSpelling taken base = numberedSpelling base k ∧
      numberedSpelling base k ∉ taken ∧ ∀ j < k, numberedSpelling base j ∈ taken) ∧
    ∀ spellings session', session.resolveProgram speller program = (.ok spellings, session') →
      spellings.Settled session' program ∧
        ∀ speller', session'.resolveProgram speller' program = (.ok spellings, session') := by
  refine ⟨freshSpelling_spec, fun spellings session' h => ?_⟩
  exact ⟨settled_of_resolveProgram hknown h, resolveAll_again h fun _ _ hfound => hfound⟩

/-- A name in ASCII and two that are not. -/
def totalAndItems : Block :=
  .ofNodes [⟨⟨"1", .output, ["total", "個数", "合計"], false, false⟩, .nil⟩]

theorem identifiers_totalAndItems : totalAndItems.identifiers = ["total", "個数", "合計"] := by
  have hmentioned : (totalAndItems.statements.flatMap fun s =>
      s.readableExprs.flatMap Expr.identifiers).eraseDups = ["total", "個数", "合計"] := by
    decide +kernel
  have hsorted : ["total", "個数", "合計"].Pairwise fun a b => decide (a ≤ b) = true := by
    decide +kernel
  rw [Block.identifiers]
  rw [hmentioned, List.mergeSort_of_pairwise hsorted]

/-- One spelling is known, and the speller proposes it for the other name as well. -/
theorem resolveProgram_settles_totalAndItems : ∃ spellings session',
    ({ known := [("個数", "kosu")] } : SpellingSession).resolveProgram (fun _ => .ok "kosu")
        totalAndItems = (.ok spellings, session') ∧
      spellings.spelling? "合計" = some "kosu_2" ∧ spellings.Settled session' totalAndItems ∧
        ∀ speller', session'.resolveProgram speller' totalAndItems = (.ok spellings, session') := by
  have hresolve : ({ known := [("個数", "kosu")] } : SpellingSession).resolveProgram
      (fun _ => .ok "kosu") totalAndItems =
        (.ok [("個数", "kosu"), ("合計", "kosu_2")],
          ⟨[("個数", "kosu"), ("合計", "kosu")], 1⟩) := by
    rw [resolveProgram, Block.nonAsciiIdentifiers, identifiers_totalAndItems]
    decide +kernel
  exact ⟨_, _, hresolve, rfl, (resolveProgram_settles (by decide +kernel)).2 _ _ hresolve⟩

/-- A speller whose proposal ends in a blank. What is proposed counts as a variable name, but the
spelling with a number behind the blank is none. -/
theorem resolveProgram_leaves_blank : ∃ spellings session',
    ({} : SpellingSession).resolveProgram (fun _ => .ok "total ") totalAndItems =
        (.ok spellings, session') ∧
      isSpelling "total " = true ∧ spellings.spelling? "個数" = some "total " ∧
        spellings.spelling? "合計" = some "total _2" ∧ isVariableName "total _2" = false := by
  have hresolve : ({} : SpellingSession).resolveProgram (fun _ => .ok "total ") totalAndItems =
      (.ok [("個数", "total "), ("合計", "total _2")],
        ⟨[("個数", "total "), ("合計", "total ")], 2⟩) := by
    rw [resolveProgram, Block.nonAsciiIdentifiers, identifiers_totalAndItems]
    decide +kernel
  exact ⟨_, _, hresolve, by decide +kernel, rfl, rfl, by decide +kernel⟩

end SpellingSession

end BlockCode
