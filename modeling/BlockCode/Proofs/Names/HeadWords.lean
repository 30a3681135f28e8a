/- # The words that lines start with

A line of code is told by its first word. Where that is a name of the program, it is what the line
writes to or the function that it calls, and it is no word of the language: names and their
spellings are not reserved, and neither is the first segment of one.
-/

import BlockCode.Proofs.Check.Constants
import BlockCode.Proofs.Names.Resolving
import BlockCode.Proofs.Target.Capture
import BlockCode.Proofs.Target.LineEnds

namespace BlockCode

/-! ## First words -/

/-- Whether the character may stand in a word. Outside ASCII only white space may not. -/
def isWordPart (c : Char) : Bool :=
  !isBlank c && (isAsciiNamePart c || decide (128 ≤ c.toNat))

/-- The first word of a text. A text that starts with any other character has none. -/
def headWord (text : String) : String :=
  String.ofList ((text.toList.dropWhile isBlank).takeWhile isWordPart)

/-- What stands behind the first word of a text. -/
def behindWord (text : String) : String :=
  String.ofList ((text.toList.dropWhile isBlank).dropWhile isWordPart)

theorem isWordPart_of_isNamePart {c : Char} (h : isNamePart c = true) : isWordPart c = true := by
  have hblank : isBlank c = false := by
    rw [← Bool.not_eq_true]
    intro hblank
    have hword := isWordChar_of_isBlank hblank
    rw [isWordChar, h] at hword
    cases hword
  rw [isWordPart, hblank, Bool.not_false, Bool.true_and, Bool.or_eq_true, decide_eq_true_eq]
  by_cases hlt : c.toNat < 128
  · exact .inl (isAsciiNamePart_of_isNamePart hlt h)
  · exact .inr (Nat.le_of_not_lt hlt)

/-- A full-width form stands in words, whatever it folds to. -/
theorem isWordPart_of_foldWidth_ne {c : Char} (h : foldWidth c ≠ c) : isWordPart c = true := by
  have hblank : isBlank c = false := by
    rw [← Bool.not_eq_true]
    exact fun hblank => h (foldWidth_of_isBlank hblank)
  have hge : 128 ≤ c.toNat := by
    rw [foldWidth] at h
    split at h
    · next hform =>
      rw [Bool.and_eq_true, decide_eq_true_eq] at hform
      exact Nat.le_trans (by decide) hform.1
    · exact absurd rfl h
  rw [isWordPart, hblank, decide_eq_true hge, Bool.or_true]
  rfl

theorem isBlank_of_isWordPart {c : Char} (h : isWordPart c = true) : isBlank c = false := by
  rw [isWordPart, Bool.and_eq_true, Bool.not_eq_true'] at h
  exact h.1

section

variable {text more : String}

/-- A text is white space, its first word, and something that the word stops at. -/
theorem exists_eq_headWord (text : String) :
    ∃ blanks, text.toList = blanks ++ ((headWord text).toList ++ (behindWord text).toList) ∧
      (∀ c ∈ blanks, isBlank c = true) ∧ (∀ c ∈ (headWord text).toList, isWordPart c = true) ∧
      ∀ c ∈ (behindWord text).toList.head?, isWordPart c = false := by
  refine ⟨text.toList.takeWhile isBlank, ?_, List.all_eq_true.mp List.all_takeWhile, ?_, ?_⟩
  · rw [headWord, behindWord, String.toList_ofList, String.toList_ofList,
      List.takeWhile_append_dropWhile, List.takeWhile_append_dropWhile]
  · rw [headWord, String.toList_ofList]
    exact List.all_eq_true.mp List.all_takeWhile
  · intro c hc
    have hfirst := List.head?_dropWhile_not isWordPart (text.toList.dropWhile isBlank)
    rw [behindWord, String.toList_ofList, Option.mem_def] at hc
    rw [hc] at hfirst
    simpa using hfirst

theorem headWord_eq {blanks word behind : List Char}
    (htext : text.toList = blanks ++ (word ++ behind)) (hblanks : ∀ c ∈ blanks, isBlank c = true)
    (hhead : ∀ c ∈ (word ++ behind).head?, isBlank c = false)
    (hword : ∀ c ∈ word, isWordPart c = true) (hbehind : ∀ c ∈ behind.head?, isWordPart c = false) :
    headWord text = String.ofList word ∧ behindWord text = String.ofList behind := by
  obtain ⟨-, hdrop⟩ := takeWhile_append_of_head hblanks hhead
  obtain ⟨htake, hrest⟩ := takeWhile_append_of_head hword hbehind
  rw [headWord, behindWord, htext, hdrop, htake, hrest]
  exact ⟨rfl, rfl⟩

theorem isBlank_of_mem_head? {word behind : List Char} (hne : word ≠ [])
    (hword : ∀ c ∈ word, isWordPart c = true) : ∀ c ∈ (word ++ behind).head?, isBlank c = false :=
    by
  obtain ⟨d, rest, rfl⟩ := List.exists_cons_of_ne_nil hne
  rintro _ ⟨⟩
  exact isBlank_of_isWordPart (hword d (.head _))

theorem toList_headWord_ne_nil (hne : headWord text ≠ "") : (headWord text).toList ≠ [] :=
  fun hnil => hne (String.toList_injective (hnil.trans rfl))

/-- A word that stops keeps its end, whatever follows. -/
theorem headWord_append (hne : headWord text ≠ "")
    (hstop : ∀ c ∈ ((behindWord text).toList ++ more.toList).head?, isWordPart c = false) :
    headWord (text ++ more) = headWord text ∧
      behindWord (text ++ more) = behindWord text ++ more := by
  obtain ⟨blanks, htext, hblanks, hword, -⟩ := exists_eq_headWord text
  have hwhole : (text ++ more).toList =
      blanks ++ ((headWord text).toList ++ ((behindWord text).toList ++ more.toList)) := by
    rw [String.toList_append, htext, List.append_assoc, List.append_assoc]
  obtain ⟨hhead, hbehind⟩ := headWord_eq hwhole hblanks
    (isBlank_of_mem_head? (toList_headWord_ne_nil hne) hword) hword hstop
  rw [hhead, hbehind, String.ofList_toList, ← String.toList_append, String.ofList_toList]
  exact ⟨rfl, rfl⟩

/-- A text whose first word stops within it, with more behind. -/
theorem headWord_append_of_behindWord (hne : headWord text ≠ "") (hbehind : behindWord text ≠ "")
    (more : String) : headWord (text ++ more) = headWord text ∧
      behindWord (text ++ more) = behindWord text ++ more := by
  refine headWord_append hne ?_
  obtain ⟨_, -, -, -, hstop⟩ := exists_eq_headWord text
  obtain ⟨c, rest, hcons⟩ := List.exists_cons_of_ne_nil
    (fun hnil => hbehind (String.toList_injective (hnil.trans rfl)) : (behindWord text).toList ≠ [])
  rw [hcons] at hstop ⊢
  exact hstop

/-- What stands behind the word starts with a character that is in no word. -/
theorem headWord_followed (hne : headWord text ≠ "") {mark : String}
    (hmark : mark.toList.head?.any (fun c => !isWordPart c) = true) (more : String) :
    headWord (text ++ (mark ++ more)) = headWord text := by
  obtain ⟨_, -, -, -, hbehind⟩ := exists_eq_headWord text
  rw [Option.any_eq_true] at hmark
  obtain ⟨d, hd, hpart⟩ := hmark
  refine (headWord_append hne fun c hc => ?_).1
  rw [String.toList_append, List.head?_append, List.head?_append, hd, Option.mem_def,
    Option.or_eq_some_iff] at hc
  rcases hc with hc | ⟨-, hc⟩
  · exact hbehind c hc
  · cases hc
    simpa using hpart

/-- A text that is all one word, with more of the word behind. -/
theorem headWord_append_of_isWordPart (hne : headWord text ≠ "") (hbehind : behindWord text = "")
    (hmore : ∀ c ∈ more.toList, isWordPart c = true) :
    headWord (text ++ more) = headWord text ++ more := by
  obtain ⟨blanks, htext, hblanks, hword, -⟩ := exists_eq_headWord text
  have hwhole : (text ++ more).toList =
      blanks ++ (((headWord text).toList ++ more.toList) ++ []) := by
    rw [String.toList_append, htext, hbehind]
    simp
  have hparts : ∀ c ∈ (headWord text).toList ++ more.toList, isWordPart c = true :=
    List.forall_mem_append.mpr ⟨hword, hmore⟩
  have hne' : (headWord text).toList ++ more.toList ≠ [] :=
    List.append_ne_nil_of_left_ne_nil (toList_headWord_ne_nil hne) _
  obtain ⟨hhead, -⟩ := headWord_eq hwhole hblanks (isBlank_of_mem_head? hne' hparts) hparts
    (by simp)
  rw [hhead, ← String.toList_append, String.ofList_toList]

end

/-! ## Names in front -/

/-- The text starts with a word that is not reserved. -/
structure StartsFree (text : String) : Prop where
  word : headWord text ≠ ""
  free : isReserved (headWord text) = false

namespace StartsFree

variable {text : String}

theorem followed (h : StartsFree text) {mark : String}
    (hmark : mark.toList.head?.any (fun c => !isWordPart c) = true) (more : String) :
    StartsFree (text ++ (mark ++ more)) := by
  have hhead := headWord_followed h.word hmark more
  exact ⟨hhead ▸ h.word, hhead ▸ h.free⟩

/-- A number behind a text leaves the word in front as it is, or becomes part of it. -/
theorem numberedSpelling (h : StartsFree text) (k : Nat) : StartsFree (numberedSpelling text k) :=
    by
  cases k with
  | zero => exact h
  | succ k =>
      rw [BlockCode.numberedSpelling, String.append_assoc]
      by_cases hbehind : behindWord text = ""
      · have hparts : ∀ c ∈ ("_" ++ toString (k + 2)).toList, isWordPart c = true := by
          rw [String.toList_append, List.forall_mem_append]
          refine ⟨by decide, fun c hc => isWordPart_of_isNamePart ?_⟩
          exact isNamePart_of_isAsciiNamePart (isAsciiNamePart_of_mem_toString hc)
        have hhead := headWord_append_of_isWordPart h.word hbehind hparts
        obtain ⟨d, hd, hdigit⟩ := exists_isAsciiDigit_toString (k + 2)
        constructor
        · rw [hhead]
          exact fun hempty => h.word (String.append_eq_empty_iff.mp hempty).1
        · rw [hhead]
          refine isReserved_eq_false_of_mem (c := d) ?_ (.inl hdigit)
          rw [String.toList_append, String.toList_append]
          exact List.mem_append_right _ (List.mem_append_right _ hd)
      · have hhead := (headWord_append_of_behindWord h.word hbehind ("_" ++ toString (k + 2))).1
        exact ⟨hhead ▸ h.word, hhead ▸ h.free⟩

end StartsFree

/-- An accepted spelling is a name, with white space around it. -/
theorem startsFree_of_isSpelling {text : String} (h : isSpelling text = true) :
    StartsFree text := by
  obtain ⟨-, hname⟩ := Bool.and_eq_true_iff.mp h
  obtain ⟨c, rest, hword, -, hpart⟩ := exists_word_of_isVariableName hname
  obtain ⟨before, behind, htext, hbefore, hbehind⟩ := exists_eq_append_trimChars text.toList
  rw [hword, List.append_assoc] at htext
  have hparts : ∀ d ∈ c :: rest, isWordPart d = true := fun d hd =>
    isWordPart_of_isNamePart (hpart d hd)
  have hstop : ∀ d ∈ behind.head?, isWordPart d = false := by
    intro d hd
    rw [isWordPart, hbehind d (List.mem_of_mem_head? hd)]
    rfl
  obtain ⟨hhead, -⟩ := headWord_eq htext hbefore
    (isBlank_of_mem_head? (List.cons_ne_nil c rest) hparts) hparts hstop
  have hsame : isReserved (String.ofList (c :: rest)) = isReserved text := by
    rw [isReserved, isReserved, String.toList_ofList, hword,
      trimChars_eq_self fun d hd => isBlank_of_isWordPart (hparts d hd)]
  rw [isVariableName, Bool.and_eq_true, Bool.not_eq_true'] at hname
  constructor
  · rw [hhead]
    exact fun hempty => List.cons_ne_nil c rest (by simpa using congrArg String.toList hempty)
  · rw [hhead, hsame, hname.2]

/-- The name starts with a segment that is not empty, and every segment is a word. -/
structure IsWordy (name : String) : Prop where
  head : ∃ c ∈ name.toList.head?, c ≠ '.'
  parts : ∀ c ∈ name.toList, isWordPart c = true ∨ c = '.'

theorem IsLexeme.isWordy {name : String} (h : IsLexeme .name name) : IsWordy name where
  head := by
    obtain ⟨c, tail, htext, htail⟩ := h
    have hstart : isNameStart c = true := by
      simpa using (worded_of_tokenTail? (htail [] breaks_nil) default).name rfl
    refine ⟨c, by rw [htext]; rfl, ?_⟩
    rintro rfl
    exact absurd hstart (by decide)
  parts c hc := (h.isNamePart_or_dot_of_mem (.inr rfl) c hc).imp_left isWordPart_of_isNamePart

/-- So is a text that folds to a name. -/
theorem isWordy_of_map_foldWidth {typed name : String} (hname : IsLexeme .name name)
    (h : typed.toList.map foldWidth = name.toList) : IsWordy typed where
  head := by
    obtain ⟨d, hd, hne⟩ := hname.isWordy.head
    rw [← h, List.head?_map, Option.mem_def, Option.map_eq_some_iff] at hd
    obtain ⟨c, hc, rfl⟩ := hd
    refine ⟨c, hc, ?_⟩
    rintro rfl
    exact hne (by decide)
  parts c hc := by
    by_cases hfold : foldWidth c = c
    · refine hname.isWordy.parts c ?_
      rw [← h, ← hfold]
      exact List.mem_map_of_mem hc
    · exact .inl (isWordPart_of_foldWidth_ne hfold)

theorem startsFree_of_forall {text : String} (hne : text ≠ "")
    (hparts : ∀ c ∈ text.toList, isWordPart c = true) (hfree : isReserved text = false) :
    StartsFree text := by
  have hne' : text.toList ≠ [] := fun hnil => hne (String.toList_injective (hnil.trans rfl))
  have htext : text.toList = [] ++ (text.toList ++ []) := by simp
  obtain ⟨hhead, -⟩ := headWord_eq htext (by simp) (isBlank_of_mem_head? hne' hparts) hparts
    (by simp)
  rw [String.ofList_toList] at hhead
  constructor
  · rw [hhead]
    exact hne
  · rw [hhead]
    exact hfree

namespace IsWordy

variable {name : String}

/-- The first segment is a word. -/
theorem exists_nameSegments_eq (h : IsWordy name) :
    ∃ first others, nameSegments name = first :: others ∧ first ≠ "" ∧
      ∀ c ∈ first.toList, isWordPart c = true := by
  obtain ⟨c, hhead, hne⟩ := h.head
  obtain ⟨rest, hcons⟩ : ∃ rest, name.toList = c :: rest := by
    cases hname : name.toList with
    | nil => rw [hname] at hhead; cases hhead
    | cons d rest =>
        rw [hname] at hhead
        cases hhead
        exact ⟨rest, rfl⟩
  obtain ⟨first, others, hrest⟩ := List.exists_cons_of_ne_nil (piecesAt_ne_nil '.' rest)
  have hpieces : piecesAt '.' name.toList = (c :: first) :: others := by
    rw [hcons, piecesAt, if_neg (by simpa using hne), hrest]
  refine ⟨String.ofList (c :: first), others.map String.ofList, ?_, ?_, fun d hd => ?_⟩
  · rw [nameSegments, stringPiecesAt, hpieces]
    rfl
  · exact fun hempty => List.cons_ne_nil c first (by simpa using congrArg String.toList hempty)
  · rw [String.toList_ofList] at hd
    have hmem : (c :: first) ∈ piecesAt '.' name.toList := hpieces ▸ .head _
    refine (h.parts d (mem_of_mem_piecesAt hmem hd)).resolve_right ?_
    rintro rfl
    exact separator_notMem_of_mem_piecesAt hmem hd

/-- What is printed for a free name starts with a word that is not reserved. -/
theorem startsFree (h : IsWordy name) (hfree : FreeName name) {p : ExprPrinter}
    (hspellings : ∀ spellings ∈ p.spellings?, ∀ entry ∈ spellings, StartsFree entry.2) :
    StartsFree (p.name name) := by
  obtain ⟨first, others, hsegments, hne, hparts⟩ := h.exists_nameSegments_eq
  have hfirst : StartsFree ((p.spellings?.bind fun spellings =>
      spellings.spelling? first).getD first) := by
    cases hfound : p.spellings?.bind fun spellings => spellings.spelling? first with
    | none => exact startsFree_of_forall hne hparts (hfree first (hsegments ▸ .head _))
    | some spelling =>
        obtain ⟨spellings, hmem, hspelling⟩ := Option.bind_eq_some_iff.mp hfound
        exact Spellings.spelling?_of_forall (hspellings spellings hmem) hspelling
  rw [p.name_eq_intercalate, ExprPrinter.segments, hsegments, List.map_cons]
  cases others with
  | nil => simpa using hfirst
  | cons next others =>
      rw [List.map_cons, String.intercalate_cons_cons, String.append_assoc]
      exact hfirst.followed (by decide) _

end IsWordy

/-- What is written to is printed as a name, with positions behind it or none. -/
theorem exists_text_of_assignable {target : Target} {spellings? : Option Spellings} {e : Expr}
    (h : e.assignableName?.isSome = true) :
    ∃ span word positions, .name span word ∈ e.parts ∧
      (target.printer spellings?).print e =
        .primary ((target.printer spellings?).name word ++ positions) ∧
      (positions = "" ∨ ∃ more, positions = target.dialect.openIndex ++ more) := by
  induction e using Expr.assignableName?.induct with
  | case1 span word =>
      refine ⟨span, word, "", .head _, ?_, .inl rfl⟩
      rw [ExprPrinter.print, String.append_empty]
  | case2 span base position ih =>
      obtain ⟨span', word, positions, hmem, hprint, hpositions⟩ := ih h
      have hatom : ((target.printer spellings?).print base).atom =
          (target.printer spellings?).name word ++ positions := by
        rw [hprint, Printed.atom, Printed.atLeast]
        exact if_pos (Nat.le_refl _)
      refine ⟨span', word, positions ++ target.dialect.openIndex ++
        (target.printer spellings?).text position ++ target.dialect.closeIndex,
        .tail _ (List.mem_append_left _ hmem), ?_, ?_⟩
      · rw [ExprPrinter.print, hatom]
        simp only [String.append_assoc]
        rfl
      · simp only [String.append_assoc]
        rcases hpositions with rfl | ⟨more, rfl⟩
        · exact .inr ⟨_, String.empty_append⟩
        · exact .inr ⟨_, String.append_assoc⟩
  | case3 e hname hindex =>
      cases e with
      | name span word => exact absurd rfl (hname span word)
      | index span base position => exact absurd rfl (hindex span base position)
      | _ => cases h

/-! ## Spellings in front -/

namespace Spellings

/-- What spellings a program is rendered with: all are accepted ones, or a session gives them that
knows only such. -/
def SuppliedFor (program : Block) (spellings : Spellings) : Prop :=
  (∀ entry ∈ spellings, isSpelling entry.2 = true) ∨
    ∃ (session : SpellingSession) (speller : Speller),
      (∀ entry ∈ session.known, isSpelling entry.2 = true) ∧
        (session.spellingsFor speller program).1 = .ok spellings

/-- What holds of every accepted spelling, and goes on holding with a number behind it, holds of all
that are supplied. -/
theorem SuppliedFor.forall_mem {program : Block} {spellings : Spellings} {P : String → Prop}
    (h : spellings.SuppliedFor program) (haccepted : ∀ text, isSpelling text = true → P text)
    (hnumbered : ∀ text k, P text → P (numberedSpelling text k)) :
    ∀ entry ∈ spellings, P entry.2 := by
  rcases h with h | ⟨session, speller, hknown, hresolve⟩
  · exact fun entry hentry => haccepted _ (h entry hentry)
  · have hspell (name spelling : String) (hspelling : speller.spell name = .ok spelling) :
        P spelling :=
      haccepted _ (SpellingSession.isSpelling_of_spell hspelling)
    exact SpellingSession.resolveAll_forall hspell hnumbered
      (fun entry hentry => haccepted _ (hknown entry hentry)) (mapError_eq_ok_iff.mp hresolve)

theorem SuppliedFor.startsFree {program : Block} {spellings : Spellings}
    (h : spellings.SuppliedFor program) : ∀ entry ∈ spellings, StartsFree entry.2 :=
  h.forall_mem (fun _ => startsFree_of_isSpelling) fun _ k htext => htext.numberedSpelling k

/-- A supplied spelling ends in part of a name, in a digit or in white space. -/
theorem SuppliedFor.noneEndsIn {program : Block} {spellings : Spellings}
    (h : spellings.SuppliedFor program) {mark : Char} (hmark : isExprEnd mark = false)
    (hblank : isBlank mark = false) : spellings.NoneEndsIn mark := by
  have hpart : isNamePart mark = false := (Bool.or_eq_false_iff.mp hmark).1
  refine h.forall_mem (P := fun text => ¬ EndsIn mark text) (fun text hspelling => ?_)
    fun text k htext => ?_
  · obtain ⟨-, hname⟩ := Bool.and_eq_true_iff.mp hspelling
    obtain ⟨c, rest, hword, -, hparts⟩ := exists_word_of_isVariableName hname
    obtain ⟨before, behind, heq, hbefore, hbehind⟩ := exists_eq_append_trimChars text.toList
    refine not_endsIn_of_notMem fun hmem => ?_
    rw [heq, hword, List.mem_append, List.mem_append] at hmem
    rcases hmem with (hmem | hmem) | hmem
    · exact absurd (hbefore _ hmem) (by simp [hblank])
    · exact absurd (hparts _ hmem) (by simp [hpart])
    · exact absurd (hbehind _ hmem) (by simp [hblank])
  · cases k with
    | zero => exact htext
    | succ k =>
        rw [numberedSpelling]
        refine not_endsIn_append
          (not_endsIn_append htext ((by decide : EndsAsExpr "_").not_endsIn hmark)) ?_
        refine not_endsIn_of_notMem fun hmem => ?_
        have hdigit := isNamePart_of_isAsciiNamePart (isAsciiNamePart_of_mem_toString hmem)
        rw [hpart] at hdigit
        cases hdigit

end Spellings

/-! ## Names of a program -/

namespace Block

variable {program : Block} {target : Target} {spellings? : Option Spellings}

/-- In a program without findings, what a statement writes to is read as a variable or an
element. -/
theorem exists_assignable (hvalid : program.validate = []) {s : Statement}
    (hs : s ∈ program.statements)
    (hkind : s.kind ∈ [.assign, .increment, .decrement, .initializeArray, .bulkAssign,
      .forIncrement, .forDecrement]) {e : Expr} (he : s.exprIn 0 = .ok e) :
    e.assignableName?.isSome = true ∧ e ∈ s.readableExprs := by
  obtain ⟨line, hline, rfl⟩ := exists_line_of_mem hs
  have hfaults := faults_of_validate hvalid line hline
  obtain ⟨n, target, harity, hpos, htarget⟩ : ∃ n target, line.statement.kind.arity? = some n ∧
      0 < n ∧ line.statement.kind.writeTarget? 0 = some target := by
    revert hkind
    cases line.statement.kind <;> simp [StatementKind.arity?, StatementKind.writeTarget?]
  have hregion : line.statement.kind ≠ .region := by
    intro hregion
    rw [hregion] at htarget
    cases htarget
  have hslot := (Line.checked_of_faults hfaults).mem_expressionSlots harity hpos hregion
  obtain ⟨e', hread, hadmits⟩ := Line.exists_admits_of_faults hfaults hslot rfl htarget
  obtain rfl : e = e' := Except.ok.inj ((mapError_eq_ok_iff.mp he).symm.trans hread)
  exact ⟨WriteTarget.isSome_assignableName? hadmits,
    Statement.mem_readableExprs hslot (Statement.readSlot_of_exprIn rfl he) (.head _)⟩

section

variable (hvalid : program.validate = [])
  (hspellings : ∀ spellings ∈ spellings?, ∀ entry ∈ spellings, StartsFree entry.2)

include hvalid hspellings

/-- What is printed for what a statement writes to starts with a word that is not reserved. -/
theorem startsFree_text {s : Statement} (hs : s ∈ program.statements)
    (hkind : s.kind ∈ [.assign, .increment, .decrement, .initializeArray, .bulkAssign,
      .forIncrement, .forDecrement]) {e : Expr} (he : s.exprIn 0 = .ok e) :
    StartsFree ((target.printer spellings?).text e) := by
  obtain ⟨hassignable, hread⟩ := exists_assignable hvalid hs hkind he
  obtain ⟨span, word, positions, hmem, hprint, hpositions⟩ :=
    @exists_text_of_assignable target spellings? e hassignable
  have hword : IsLexeme .name word := (Statement.legible_of_mem_readableExprs hread).1 _ hmem
  have hfree := Statement.freeName_of_mem_readableExprs hread hmem rfl
  have hstart := hword.isWordy.startsFree hfree (p := target.printer spellings?) hspellings
  rw [ExprPrinter.text, hprint, Printed.primary]
  rcases hpositions with rfl | ⟨more, rfl⟩
  · rwa [String.append_empty]
  · exact hstart.followed (by cases target <;> decide) more

/-- So does what is printed for the function that a statement defines or calls. -/
theorem startsFree_functionName {s : Statement} (hs : s ∈ program.statements)
    (hkind : s.kind = .defineFunction ∨ s.kind = .callFunction) :
    StartsFree ((target.printer spellings?).name (s.plainSlot 0)) := by
  obtain ⟨span, word, hread, hmem⟩ := exists_functionName hvalid hs hkind
  have hlexeme : IsLexeme .name word :=
    (Statement.legible_of_mem_readableExprs hmem).1 _ (Expr.mem_parts_self _)
  exact (isWordy_of_map_foldWidth hlexeme (map_foldWidth_trim hread)).startsFree
    (freeName_of_functionName hvalid hs hkind) hspellings

end

end Block

end BlockCode
