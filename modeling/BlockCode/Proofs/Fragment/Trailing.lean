/- # What a trailing negation negates

A marker behind an operand is meant to negate all of the operand. The reader goes over the tokens
from the front, and the operand is found from the end by counting brackets. The two agree on names
and numbers. On an operand that ends with a bracket they agree exactly where it stands together:
nothing separates the brackets from the name in front of them, the brackets in between match even
when those in strings are counted, and what an element is taken from is found without going back
over other brackets.

Where no string has brackets, the last two come to this: an element is taken from a name, and not
from another element or a call.
-/

import BlockCode.Proofs.Expr.Operands

namespace BlockCode

/-! ## Operands that stand together -/

namespace Expr

/-- The expressions that a trailing negation may follow. -/
def isOperand : Expr → Bool
  | .number .. | .name .. | .index .. | .call .. | .builtin .. | .group .. => true
  | _ => false

/-- The text is the operand, with nothing between its brackets and the words in front of them, and
with brackets that match if strings are not regarded. -/
inductive StandsTogether : Expr → List Char → Prop
  | number (span : Span) (text : String) : StandsTogether (.number span text) text.toList
  | name (span : Span) (word : String) : StandsTogether (.name span word) word.toList
  | parens {e : Expr} {words : List String} {inner : List Char} (hwords : e.callee? = some words)
      (hinner : BracketsMatch '(' ')' inner) :
      StandsTogether e (words.flatMap String.toList ++ '(' :: (inner ++ [')']))
  | element {span : Span} {base position : Expr} {word : String} {inner : List Char}
      (hword : base.assignableName? = some word) (hinner : BracketsMatch '[' ']' inner) :
      StandsTogether (.index span base position) (word.toList ++ '[' :: (inner ++ [']']))

end Expr

/-! ## From operands to texts -/

/-- The characters of names and numbers are those of a run. -/
theorem isOperandChar_of_isWordChar {c : Char} (h : isWordChar c = true) :
    isOperandChar c = true := by
  rw [isWordChar, Bool.or_eq_true, Bool.or_eq_true] at h
  rw [isOperandChar]
  rcases h with (hpart | hdot) | hcolon
  · have hname := endsName_of_isNamePart hpart
    rw [BracketScan.endsName] at hname
    rw [hname]
    rfl
  · simp [hdot]
  · simp [hcolon]

theorem isWordChar_of_isLexeme_number {word : String} (h : IsLexeme .number word) :
    ∀ c ∈ word.toList, isWordChar c = true := by
  obtain ⟨c, tail, hword, htail⟩ := h
  rw [hword]
  rcases tokenTail?_cases (htail [] breaks_nil) with
    ⟨hkind, -⟩ | ⟨-, hchars⟩ | ⟨-, hkind⟩ | ⟨entry, hmem, hkind, -⟩
  · cases hkind
  · exact hchars
  · exact absurd hkind (by decide)
  · have hoperators : ∀ entry ∈ operatorWords, entry.2 ≠ .number := by decide
    exact absurd hkind (hoperators entry hmem)

/-- The words in front of the brackets of an operand that was read are runs of characters. -/
theorem isWordChar_of_callee? {text : String} {e : Expr} (hread : parseExpr text = .ok e)
    {words : List String} (hwords : e.callee? = some words) :
    ∀ c ∈ words.flatMap String.toList, isWordChar c = true := by
  have hlegible := Expr.ownLegible_of_parseExpr hread e e.mem_parts_self
  have hmarker : ∀ c ∈ userMarkerText.toList, isWordChar c = true := by decide
  have hbuiltins : ∀ function ∈ Builtin.all, ∀ c ∈ function.name.toList, isWordChar c = true := by
    decide
  rw [List.forall_mem_flatMap]
  cases e with
  | group =>
      cases hwords
      exact List.forall_mem_nil _
  | call span word args userDefined =>
      cases hwords
      have hword := hlegible.1.isWordChar_of_mem
      cases userDefined with
      | true => exact List.forall_mem_cons.mpr ⟨hmarker, List.forall_mem_singleton.mpr hword⟩
      | false => exact List.forall_mem_singleton.mpr hword
  | builtin span function args =>
      cases hwords
      exact List.forall_mem_singleton.mpr (hbuiltins function (by cases function <;> decide))
  | _ => cases hwords

/-- An operand that stands together is found from its end. -/
theorem Expr.StandsTogether.backwardOperand {t : String} {e : Expr} (hread : parseExpr t = .ok e)
    {text : List Char} (h : e.StandsTogether text) : BackwardOperand text := by
  cases h with
  | number =>
      have hnumber := Expr.ownLegible_of_parseExpr hread _ (Expr.mem_parts_self _)
      exact .inl fun c hc =>
        isOperandChar_of_isWordChar (isWordChar_of_isLexeme_number hnumber c hc)
  | name =>
      have hname := Expr.ownLegible_of_parseExpr hread _ (Expr.mem_parts_self _)
      exact .inl fun c hc =>
        isOperandChar_of_isWordChar (IsLexeme.isWordChar_of_mem hname c hc)
  | parens hwords hinner =>
      exact .inr ⟨('(', ')'), .head _, _, _, rfl,
        fun c hc => isOperandChar_of_isWordChar (isWordChar_of_callee? hread hwords c hc), hinner⟩
  | element hword hinner =>
      have hname := (exists_takeWhile_eq_of_parseExpr hread hword).1
      exact .inr ⟨('[', ']'), .tail _ (.head _), _, _, rfl,
        fun c hc => isOperandChar_of_isWordChar (hname.isWordChar_of_mem c hc), hinner⟩

/-! ## From texts to operands -/

theorem isTokenGap_of_isBlank_eq_false {c : Char} (h : isBlank c = false) :
    isTokenGap c = false := by
  rw [← Bool.not_eq_true]
  intro hgap
  cases h.symm.trans (isBlank_of_isTokenGap hgap)

theorem isTokenGap_of_isOperandChar {c : Char} (h : isOperandChar c = true) :
    isTokenGap c = false :=
  isTokenGap_of_isBlank_eq_false
    (isBlank_of_startsOperand (c := c) (by simp [startsOperand, h])).1

theorem isBracket_of_isOperandChar {c : Char} (h : isOperandChar c = true) :
    isBracket c = false := by
  have hbrackets : ∀ d ∈ bracketTokens.map Prod.snd, isOperandChar d = false := by decide
  rw [← Bool.not_eq_true]
  intro hbracket
  cases h.symm.trans (hbrackets c (List.contains_iff_mem.mp hbracket))

/-- A text has one first character with a property. -/
theorem append_cons_inj_of_forall {p : Char → Bool} {front front' behind behind' : List Char}
    {c c' : Char} (hfront : ∀ d ∈ front, p d = false) (hfront' : ∀ d ∈ front', p d = false)
    (hc : p c = true) (hc' : p c' = true) (h : front ++ c :: behind = front' ++ c' :: behind') :
    front = front' ∧ c = c' ∧ behind = behind' := by
  have cut {front behind : List Char} {c : Char} (hfront : ∀ d ∈ front, p d = false)
      (hc : p c = true) : (front ++ c :: behind).takeWhile (fun d => !p d) = front ∧
        (front ++ c :: behind).dropWhile (fun d => !p d) = c :: behind :=
    takeWhile_append_of_head (by simpa using hfront) (by simpa using hc)
  obtain ⟨htake, hdrop⟩ := @cut front behind c hfront hc
  obtain ⟨htake', hdrop'⟩ := @cut front' behind' c' hfront' hc'
  rw [h] at htake hdrop
  obtain ⟨hchar, hbehind⟩ := List.cons.inj (hdrop.symm.trans hdrop')
  exact ⟨htake.symm.trans htake', hchar, hbehind⟩

theorem isBracket_of_mem_operandBrackets {brackets : Char × Char}
    (h : brackets ∈ operandBrackets) : isBracket brackets.1 = true ∧ isBracket brackets.2 = true :=
    by
  have hboth : ∀ brackets ∈ operandBrackets,
      isBracket brackets.1 = true ∧ isBracket brackets.2 = true := by
    decide
  exact hboth brackets h

/-- Either bracket tells the other. -/
theorem eq_of_fst_eq {brackets other : Char × Char} (h : brackets ∈ operandBrackets)
    (hother : other ∈ operandBrackets) (heq : other.1 = brackets.1) : other = brackets := by
  have hfirst : ∀ brackets ∈ operandBrackets, ∀ other ∈ operandBrackets,
      other.1 = brackets.1 → other = brackets := by
    decide
  exact hfirst brackets h other hother heq

namespace BackwardOperand

/-- What is found from the end has its first bracket behind a run of characters. -/
theorem of_append_cons {front behind : List Char} {c : Char}
    (h : BackwardOperand (front ++ c :: behind)) (hfront : ∀ d ∈ front, isBracket d = false)
    (hc : isBracket c = true) : ∃ brackets ∈ operandBrackets, ∃ inner, c = brackets.1 ∧
      behind = inner ++ [brackets.2] ∧ (∀ d ∈ front, isOperandChar d = true) ∧
        BracketsMatch brackets.1 brackets.2 inner := by
  rcases h with hall | ⟨brackets, hmem, word, inner, htext, hword, hmatch⟩
  · have hplain := isBracket_of_isOperandChar (hall c (by simp))
    cases hplain.symm.trans hc
  · obtain ⟨rfl, rfl, rfl⟩ := append_cons_inj_of_forall hfront
      (fun d hd => isBracket_of_isOperandChar (hword d hd)) hc
      (isBracket_of_mem_operandBrackets hmem).1 htext
    exact ⟨brackets, hmem, inner, rfl, rfl, hword, hmatch⟩

/-- Nor does it end with white space. -/
theorem isTokenGap_getLast {text : List Char} (h : BackwardOperand text) :
    ∀ c ∈ text.getLast?, isTokenGap c = false := by
  intro c hc
  rcases h with hall | ⟨brackets, hmem, word, inner, rfl, -, -⟩
  · exact isTokenGap_of_isOperandChar (hall c (List.mem_of_getLast? hc))
  · rw [← List.cons_append, ← List.append_assoc, List.getLast?_concat] at hc
    cases hc
    have hclosing : ∀ brackets ∈ operandBrackets, isTokenGap brackets.2 = false := by decide
    exact hclosing brackets hmem

end BackwardOperand

section

variable {tokens front : List Token} {text : List Char} {e : Expr}

/-- Words have no brackets, whatever white space stands between them. -/
theorem Written.isBracket_of_words (h : Written front text) (hshown : ∀ token ∈ front, token.Shown)
    (hwords : ∀ token ∈ front, token.kind ∈ [.userMarker, .name, .number]) :
    ∀ c ∈ text, isBracket c = false :=
  h.forall_mem (fun _ => isBracket_of_isTokenGap) fun token htoken c hc =>
    isBracket_of_isWordChar ((hshown token htoken).word (hwords token htoken) c hc)

/-- Where nothing stands between words, the text is the words. -/
theorem Written.eq_words (h : Written front text) (htext : ∀ c ∈ text, isTokenGap c = false) :
    text = (front.map Token.text).flatMap String.toList := by
  rw [h.eq_flatMap htext, List.flatMap_map]

/-- What is found from the end has the words in front of its first bracket directly in front of it,
and ends with the bracket that belongs to it. -/
theorem BackwardOperand.exists_eq (h : BackwardOperand text) {opening : Token} {rest : List Token}
    (hwritten : Written (front ++ opening :: rest) text) (hshown : ∀ token ∈ front, token.Shown)
    (hwords : ∀ token ∈ front, token.kind ∈ [.userMarker, .name]) {brackets : Char × Char}
    (hmem : brackets ∈ operandBrackets) (hopening : opening.text.toList = [brackets.1]) :
    ∃ inner, text = (front.map Token.text).flatMap String.toList ++
        brackets.1 :: (inner ++ [brackets.2]) ∧ BracketsMatch brackets.1 brackets.2 inner := by
  have hsubset : ∀ kind ∈ [TokenKind.userMarker, .name], kind ∈ [.userMarker, .name, .number] := by
    decide
  obtain ⟨before, behind, rfl, hbefore, -⟩ := hwritten.exists_eq_append_cons
  have hplain := hbefore.isBracket_of_words hshown fun token htoken =>
    hsubset _ (hwords token htoken)
  rw [hopening] at h ⊢
  obtain ⟨other, hother, inner, hfirst, rfl, hrun, hmatch⟩ :=
    h.of_append_cons hplain (isBracket_of_mem_operandBrackets hmem).1
  obtain rfl := eq_of_fst_eq hother hmem hfirst
  exact ⟨inner,
    by rw [hbefore.eq_words fun c hc => isTokenGap_of_isOperandChar (hrun c hc)]; rfl, hmatch⟩

/-- A number or a name that is found from its end is all of the text. -/
theorem BackwardOperand.eq_of_leaf (h : BackwardOperand text) {token : Token}
    (hwritten : Written [token] text) (hshown : token.Shown)
    (hkind : token.kind ∈ [.userMarker, .name, .number]) : text = token.text.toList := by
  have hplain := hwritten.isBracket_of_words (List.forall_mem_singleton.mpr hshown)
    (List.forall_mem_singleton.mpr hkind)
  rcases h with hall | ⟨brackets, hmem, word, inner, rfl, -, -⟩
  · rw [hwritten.eq_words fun c hc => isTokenGap_of_isOperandChar (hall c hc), List.map_singleton,
      List.flatMap_singleton]
  · cases (isBracket_of_mem_operandBrackets hmem).1.symm.trans (hplain brackets.1 (by simp))

/-- An operand that is found from its end stands together. -/
theorem Expr.SpelledBy.standsTogether (h : e.SpelledBy tokens) (he : e.isOperand = true)
    (hshown : ∀ token ∈ tokens, token.Shown) (hwritten : Written tokens text)
    (hback : BackwardOperand text) : e.StandsTogether text := by
  cases h with
  | @leaf _ token hleaf =>
      have hshown := List.forall_mem_singleton.mp hshown
      rw [Token.leaf?] at hleaf
      split at hleaf <;> cases hleaf
      case h_1 hkind =>
        rw [hback.eq_of_leaf hwritten hshown (by simp [hkind])]
        exact .number _ _
      case h_5 hkind =>
        rw [hback.eq_of_leaf hwritten hshown (by simp [hkind])]
        exact .name _ _
      all_goals cases he
  | @parens _ front inner opening closing hfront hwords hopening =>
      rw [List.forall_mem_append, List.forall_mem_cons] at hshown
      obtain ⟨inner', rfl, hmatch⟩ := hback.exists_eq hwritten hshown.1 hwords (.head _)
        (hshown.2.1.bracket _ (.head _) hopening)
      exact .parens hfront hmatch
  | @element span base position front inner opening closing htakes hbase hopening hinner hclosing =>
      have hspelled : (Expr.index span base position).SpelledBy
          (front ++ opening :: (inner ++ [closing])) :=
        .element htakes hbase hopening hinner hclosing
      have hend : closing.text.toList = [']'] :=
        (hshown closing (by simp)).bracket (.rightBracket, ']') (by decide) hclosing
      have hsplit : front ++ opening :: (inner ++ [closing]) =
          (front ++ opening :: inner) ++ [closing] := by
        simp
      obtain ⟨before, htext, -⟩ := (hsplit ▸ hwritten).exists_eq_concat hback.isTokenGap_getLast
      rw [hend] at htext
      rcases hspelled.exists_front with
        ⟨token, -, hleaf⟩ | ⟨words, first, rest, heq, hwords, hfirst⟩
      · rw [Token.leaf?] at hleaf
        split at hleaf <;> cases hleaf
      · rw [heq] at hwritten hshown
        rw [List.forall_mem_append, List.forall_mem_cons] at hshown
        rcases hfirst with hparen | ⟨hbracket, word, hword, hname⟩
        · -- The last bracket is a square one, and closes no parenthesis.
          obtain ⟨inner', hparens, -⟩ := hback.exists_eq hwritten hshown.1 hwords (.head _)
            (hshown.2.1.bracket _ (.head _) hparen)
          rw [htext, ← List.cons_append, ← List.append_assoc] at hparens
          cases (List.append_inj' hparens rfl).2
        · obtain ⟨inner', rfl, hmatch⟩ := hback.exists_eq hwritten hshown.1 hwords
            (.tail _ (.head _)) (hshown.2.1.bracket (.leftBracket, '[') (by decide) hbracket)
          rw [hname, List.flatMap_singleton]
          exact .element hword hmatch

/-! ## Where no string has brackets -/

/-- An element is taken from a name, and not from another element or from a call. -/
def Expr.TakenFromName : Expr → Prop
  | .index _ base _ => ∃ span word, base = .name span word
  | _ => True

/-- There is no white space in front of the first bracket. -/
def Tight (text : List Char) : Prop :=
  ∀ c ∈ text.takeWhile (fun c => !isBracket c), isBlank c = false

instance (text : List Char) : Decidable (Tight text) :=
  inferInstanceAs (Decidable (∀ c ∈ text.takeWhile (fun c => !isBracket c), isBlank c = false))

theorem tight_append_iff {run rest : List Char} (hrun : ∀ c ∈ run, isBracket c = false)
    (hrest : ∀ c ∈ rest.head?, isBracket c = true) :
    Tight (run ++ rest) ↔ ∀ c ∈ run, isBlank c = false := by
  rw [Tight, (takeWhile_append_of_head (by simpa using hrun) (by simpa using hrest)).1]

/-- An operand that stands together has nothing but a run of characters in front of its brackets. -/
theorem Expr.StandsTogether.tight {t : String} (hread : parseExpr t = .ok e)
    (h : e.StandsTogether text) : Tight text := by
  have run_tight {run rest : List Char} (hrun : ∀ c ∈ run, isWordChar c = true)
      (hrest : ∀ c ∈ rest.head?, isBracket c = true) : Tight (run ++ rest) := by
    rw [tight_append_iff (fun c hc => isBracket_of_isWordChar (hrun c hc)) hrest]
    intro c hc
    rw [← Bool.not_eq_true]
    intro hblank
    cases (hrun c hc).symm.trans (isWordChar_of_isBlank hblank)
  cases h with
  | number =>
      have hnumber := Expr.ownLegible_of_parseExpr hread _ (Expr.mem_parts_self _)
      simpa using @run_tight _ [] (isWordChar_of_isLexeme_number hnumber) (by simp)
  | name =>
      have hname := Expr.ownLegible_of_parseExpr hread _ (Expr.mem_parts_self _)
      simpa using @run_tight _ [] (IsLexeme.isWordChar_of_mem hname) (by simp)
  | parens hwords =>
      exact run_tight (isWordChar_of_callee? hread hwords) (by simp; decide)
  | element hword =>
      have hname := (exists_takeWhile_eq_of_parseExpr hread hword).1
      exact run_tight hname.isWordChar_of_mem (by simp; decide)

/-- If it is an element, then one that is taken from a name. -/
theorem Expr.SpelledBy.takenFromName (h : e.SpelledBy tokens)
    (hquiet : ∀ token ∈ tokens, token.Quiet) (hwritten : Written tokens text)
    (hlast : ∀ c ∈ text.getLast?, isTokenGap c = false) {t : String}
    (hread : parseExpr t = .ok e) (hstands : e.StandsTogether text) : e.TakenFromName := by
  cases h with
  | leaf hleaf =>
      rw [Token.leaf?] at hleaf
      split at hleaf <;> cases hleaf <;> trivial
  | parens hfront =>
      cases e with
      | index => cases hfront
      | _ => trivial
  | @element span base position front inner opening closing htakes hbase hopening hinner hclosing =>
      rw [List.forall_mem_append, List.forall_mem_cons, List.forall_mem_append,
        List.forall_mem_singleton] at hquiet
      obtain ⟨hfront, hopen, hwithin, hclose⟩ := hquiet
      obtain ⟨before, within, htext, hbefore, hinside⟩ := hwritten.exists_enclosed hlast
      rw [hopen.shown.bracket (.leftBracket, '[') (by decide) hopening,
        hclose.shown.bracket (.rightBracket, ']') (by decide) hclosing] at htext
      have hmatch : TokensMatch ('[', ']') inner := hinner.tokensMatch (by decide) hwithin
      replace hmatch := hmatch within hinside
      rcases hbase.exists_front with ⟨token, rfl, hleaf⟩ | ⟨words, first, rest, rfl, -, hfirst⟩
      · exact ⟨_, _, (Token.eq_name_of_leaf? hleaf htakes).2⟩
      · -- What the element is taken from has brackets, so the first bracket is one of these.
        obtain ⟨bracket, hmem, hbracket⟩ : ∃ c ∈ before, isBracket c = true := by
          obtain ⟨_, _, rfl, -, -⟩ := hbefore.exists_eq_append_cons
          rw [List.forall_mem_append, List.forall_mem_cons] at hfront
          rcases hfirst with hparen | ⟨hsquare, -⟩
          · rw [hfront.2.1.shown.bracket _ (.head _) hparen]
            exact ⟨'(', by simp, by decide⟩
          · rw [hfront.2.1.shown.bracket (.leftBracket, '[') (by decide) hsquare]
            exact ⟨'[', by simp, by decide⟩
        cases hstands with
        | parens hcallee => cases hcallee
        | @element _ _ _ word inner' hword hinner' =>
            have hname := (exists_takeWhile_eq_of_parseExpr hread hword).1
            have hplain : bracket ∉ word.toList := fun hmem =>
              absurd ((isBracket_of_isWordChar (hname.isWordChar_of_mem bracket hmem)).symm.trans
                hbracket) (by decide)
            rcases List.append_eq_append_iff.mp htext with ⟨more, rfl, hmore⟩ | ⟨more, hmore, -⟩
            · cases more with
              | nil => exact absurd (by simpa using hmem) hplain
              | cons c more =>
                  -- The last opening bracket is then closed where nothing was opened.
                  obtain ⟨-, hrest⟩ := List.cons.inj hmore
                  have hsplit : inner' ++ [']'] = (more ++ '[' :: within) ++ [']'] := by
                    simpa using hrest
                  obtain ⟨rfl, -⟩ := List.append_inj' hsplit rfl
                  have hle : within.count '[' + 1 ≤ within.count ']' := by
                    simpa using hinner'.open_le ('[' :: within) (List.suffix_append _ _)
                  have heq : within.count '[' = within.count ']' := hmatch.open_eq
                  omega
            · exact absurd (hmore ▸ List.mem_append_left more hmem) hplain

/-- Words that nothing separates from each other or from the bracket behind them, and brackets that
match in between, are what is found from the end. -/
theorem Written.exists_matching {opening closing : Token} {inner : List Token}
    (hwritten : Written (front ++ opening :: (inner ++ [closing])) text)
    (hshown : ∀ token ∈ front, token.Shown)
    (hwords : ∀ token ∈ front, token.kind ∈ [.userMarker, .name])
    {brackets : Char × Char} (hmem : brackets ∈ operandBrackets)
    (hopening : opening.text.toList = [brackets.1]) (hclosing : closing.text.toList = [brackets.2])
    (hinner : TokensMatch brackets inner) (hlast : ∀ c ∈ text.getLast?, isTokenGap c = false)
    (htight : Tight text) :
    ∃ inner', text = (front.map Token.text).flatMap String.toList ++
        brackets.1 :: (inner' ++ [brackets.2]) ∧ BracketsMatch brackets.1 brackets.2 inner' := by
  have hsubset : ∀ kind ∈ [TokenKind.userMarker, .name], kind ∈ [.userMarker, .name, .number] := by
    decide
  obtain ⟨before, within, rfl, hbefore, hwithin⟩ := hwritten.exists_enclosed hlast
  rw [hopening, hclosing] at htight ⊢
  have hplain := hbefore.isBracket_of_words hshown fun token htoken =>
    hsubset _ (hwords token htoken)
  have hrun := (tight_append_iff hplain (by simpa using
    (isBracket_of_mem_operandBrackets hmem).1)).mp htight
  have hsolid : ∀ c ∈ before, isTokenGap c = false := fun c hc =>
    isTokenGap_of_isBlank_eq_false (hrun c hc)
  exact ⟨within, by rw [hbefore.eq_words hsolid]; rfl, hinner within hwithin⟩

/-- Where no string has brackets, an operand without white space in front of its first bracket
stands together, unless it is an element that is not taken from a name. -/
theorem Expr.SpelledBy.standsTogether_of_tight (h : e.SpelledBy tokens) (he : e.isOperand = true)
    (hquiet : ∀ token ∈ tokens, token.Quiet) (hwritten : Written tokens text)
    (hlast : ∀ c ∈ text.getLast?, isTokenGap c = false) (htaken : e.TakenFromName)
    (htight : Tight text) : e.StandsTogether text := by
  cases h with
  | @leaf _ token hleaf =>
      have hshown := (List.forall_mem_singleton.mp hquiet).shown
      have whole (hkind : token.kind ∈ [.userMarker, .name, .number]) :
          text = token.text.toList := by
        have hplain := hwritten.isBracket_of_words (List.forall_mem_singleton.mpr hshown)
          (List.forall_mem_singleton.mpr hkind)
        rw [← List.append_nil text, tight_append_iff hplain (by simp)] at htight
        have hsolid : ∀ c ∈ text, isTokenGap c = false := fun c hc =>
          isTokenGap_of_isBlank_eq_false (htight c hc)
        rw [hwritten.eq_words hsolid, List.map_singleton, List.flatMap_singleton]
      rw [Token.leaf?] at hleaf
      split at hleaf <;> cases hleaf
      case h_1 hkind =>
        rw [whole (by simp [hkind])]
        exact .number _ _
      case h_5 hkind =>
        rw [whole (by simp [hkind])]
        exact .name _ _
      all_goals cases he
  | @parens _ front inner opening closing hfront hwords hopening hinner hclosing =>
      rw [List.forall_mem_append, List.forall_mem_cons, List.forall_mem_append,
        List.forall_mem_singleton] at hquiet
      obtain ⟨hquiet, hopen, hwithin, hclose⟩ := hquiet
      have hmatch : TokensMatch ('(', ')') inner := by
        rcases hinner with rfl | ⟨items, hitems⟩
        · exact .nil (.head _)
        · exact hitems.tokensMatch (.head _) hwithin
      obtain ⟨inner', rfl, hmatch⟩ := hwritten.exists_matching (fun token htoken =>
        (hquiet token htoken).shown) hwords (.head _) (hopen.shown.bracket _ (.head _) hopening)
        (hclose.shown.bracket _ (.tail _ (.head _)) hclosing) hmatch hlast htight
      exact .parens hfront hmatch
  | @element span base position front inner opening closing htakes hbase hopening hinner hclosing =>
      obtain ⟨span', word, rfl⟩ := htaken
      rw [List.forall_mem_append, List.forall_mem_cons, List.forall_mem_append,
        List.forall_mem_singleton] at hquiet
      obtain ⟨hquiet, hopen, hwithin, hclose⟩ := hquiet
      cases hbase with
      | parens hfront => cases hfront
      | @leaf _ token hleaf =>
          obtain ⟨hkind, hname⟩ := Token.eq_name_of_leaf? hleaf htakes
          cases hname
          have hmatch : TokensMatch ('[', ']') inner := hinner.tokensMatch (by decide) hwithin
          obtain ⟨inner', rfl, hmatch⟩ := hwritten.exists_matching (fun token htoken =>
            (hquiet token htoken).shown) (by simp [hkind]) (by decide)
            (hopen.shown.bracket (.leftBracket, '[') (by decide) hopening)
            (hclose.shown.bracket (.rightBracket, ']') (by decide) hclosing) hmatch hlast htight
          rw [List.map_singleton, List.flatMap_singleton]
          exact .element rfl hmatch

end

/-! ## What the marker negates -/

/-- No string in the text has a bracket. -/
def BracketFreeStrings (text : String) : Prop :=
  ∀ tokens, lex text = .ok tokens → ∀ token ∈ tokens, token.kind = .string →
    ∀ c ∈ token.text.toList, isBracket c = false

instance (text : String) : Decidable (BracketFreeStrings text) :=
  decidable_of_iff (∀ tokens ∈ (lex text).toOption, ∀ token ∈ tokens, token.kind = .string →
      ∀ c ∈ token.text.toList, isBracket c = false) <| by
    rw [BracketFreeStrings]
    cases lex text <;> simp [Except.toOption]

/-- An operand starts with a word, a number or a parenthesis. -/
theorem Expr.SpelledBy.exists_first {e : Expr} {tokens : List Token} (h : e.SpelledBy tokens)
    (he : e.isOperand = true) : ∃ first rest, tokens = first :: rest ∧
      (first.kind ∈ [.userMarker, .name, .number] ∨ first.kind = .leftParen) := by
  rcases h.exists_front with ⟨token, rfl, hleaf⟩ | ⟨front, opening, rest, rfl, hwords, hfirst⟩
  · refine ⟨token, [], rfl, .inl ?_⟩
    rw [Token.leaf?] at hleaf
    split at hleaf <;> cases hleaf
    case h_1 hkind | h_5 hkind => simp [hkind]
    all_goals cases he
  · cases front with
    | cons first front =>
        have hkind : first.kind = .userMarker ∨ first.kind = .name := by
          simpa using hwords first (.head _)
        exact ⟨first, front ++ opening :: rest, rfl, .inl (by rcases hkind with h | h <;> simp [h])⟩
    | nil =>
        rcases hfirst with hparen | ⟨-, word, -, hword⟩
        · exact ⟨opening, rest, rfl, .inr hparen⟩
        · cases hword

/-- No such token starts with the operator of a negation. -/
theorem Token.Shown.ne_not_of_head? {first : Token} (h : first.Shown) (hseen : first.Seen)
    (hkind : first.kind ∈ [.userMarker, .name, .number] ∨ first.kind = .leftParen) :
    ∃ c rest, first.text.toList = c :: rest ∧ c ≠ '!' := by
  rcases hkind with hword | hparen
  · have hkinds : ∀ kind ∈ [TokenKind.userMarker, .name, .number],
        kind ≠ .leftParen ∧ kind ≠ .rightParen ∧ kind ≠ .unclosedString := by
      decide
    obtain ⟨hleft, hright, hclosed⟩ := hkinds _ hword
    obtain ⟨last, hlast, -, -⟩ := hseen.other hleft hright hclosed
    obtain ⟨c, rest, htext⟩ := List.exists_cons_of_ne_nil
      (List.ne_nil_of_mem (List.mem_of_getLast? hlast))
    refine ⟨c, rest, htext, ?_⟩
    rintro rfl
    have hchar := h.word hword '!' (by rw [htext]; exact .head _)
    exact absurd hchar (by decide)
  · exact ⟨'(', [], h.bracket _ (.head _) hparen, by decide⟩

/-- A text is outside strings where its tokens end. -/
theorem Written.past_outside {tokens : List Token} {text : List Char} (h : Written tokens text)
    (hseen : ∀ token ∈ tokens, token.Seen)
    (hclosed : ∀ token ∈ tokens, token.kind ≠ .unclosedString) :
    Quotation.outside.past isDoubleQuote text = .outside := by
  induction h with
  | nil => rfl
  | @gap c tokens text hgap _ ih =>
      have hblank : ∀ d ∈ [c], isBlank d = true :=
        List.forall_mem_singleton.mpr (isBlank_of_isTokenGap hgap)
      rw [← List.singleton_append, Quotation.past_append, BracketScan.past_blank hblank,
        ih hseen hclosed]
  | token token _ ih =>
      rw [List.forall_mem_cons] at hseen hclosed
      rw [Quotation.past_append, hseen.1.past_outside hclosed.1, ih hseen.2 hclosed.2]

/-- The negation of an operand is all of it with the operator in front. A marker behind the text
gives just that where the operand stands together; where no string has a bracket, that is where no
white space precedes its first bracket, unless it is an element that is not taken from a name. -/
theorem rewriteNegation_negates_operand {t : String} {e : Expr} (htrim : trim t = t)
    (hmarker : splitAtMarkerFrom? .outside t.toList = none) (hread : parseExpr t = .ok e)
    (hoperand : e.isOperand = true) :
    (rewriteNegation (t.toList ++ negationMarker) = .ok ('!' :: t.toList) ↔
        e.StandsTogether t.toList) ∧
      (BracketFreeStrings t →
        (rewriteNegation (t.toList ++ negationMarker) = .ok ('!' :: t.toList) ↔
          e.TakenFromName ∧ Tight t.toList)) := by
  obtain ⟨tokens, hlex, hspells⟩ := exists_spells_of_parseExpr hread
  have hwritten := written_of_lexFrom hlex
  have hshown := shown_of_mem_lexFrom hlex
  have hseen := seen_of_mem_lexFrom hlex
  have hspelled : e.SpelledBy tokens :=
    hspells.operandSpelled (fun token htoken => (hshown token htoken).marker)
      (by cases e <;> first | rfl | cases hoperand)
  have hlist : trimChars t.toList = t.toList := by
    rw [← String.toList_inj] at htrim
    simpa [trim] using htrim
  have hlast : ∀ c ∈ t.toList.getLast?, isBlank c = false := fun c hc =>
    isBlank_getLast_trimChars (hlist.symm ▸ hc)
  have hgap : ∀ c ∈ t.toList.getLast?, isTokenGap c = false := fun c hc =>
    isTokenGap_of_isBlank_eq_false (hlast c hc)
  -- The first character belongs to the first token.
  obtain ⟨first, rest, rfl, hfirst⟩ := hspelled.exists_first hoperand
  obtain ⟨gaps, behind, htext, hgaps, -⟩ := hwritten.exists_eq_of_cons
  obtain ⟨c, more, hfirst, hne⟩ :=
    (hshown first (.head _)).ne_not_of_head? (hseen first (.head _)) hfirst
  have hhead : ∃ rest, t.toList = c :: rest := by
    cases gaps with
    | nil => exact ⟨more ++ behind, by rw [htext, hfirst]; rfl⟩
    | cons d gaps =>
        have hblank : isBlank d = false :=
          @isBlank_head_trimChars t.toList d (by rw [hlist, htext]; rfl)
        have hd := isBlank_of_isTokenGap (hgaps d (.head _))
        cases hblank.symm.trans hd
  obtain ⟨rest', hhead⟩ := hhead
  have hiff : rewriteNegation (t.toList ++ negationMarker) = .ok ('!' :: t.toList) ↔
      e.StandsTogether t.toList := by
    rw [rewriteNegation_append_marker_iff (by simp [hhead]) (by simpa [hhead] using hne) hlast
      hmarker
      (hwritten.past_outside hseen hspells.ne_unclosedString)]
    exact ⟨hspelled.standsTogether hoperand hshown hwritten, fun h => h.backwardOperand hread⟩
  refine ⟨hiff, fun hfree => ?_⟩
  have hquiet : ∀ token ∈ first :: rest, token.Quiet := fun token htoken =>
    ⟨hshown token htoken, fun hkind => hfree _ hlex token htoken <| by
      simpa [hspells.ne_unclosedString token htoken] using hkind⟩
  rw [hiff]
  constructor
  · exact fun h => ⟨hspelled.takenFromName hquiet hwritten hgap hread h, h.tight hread⟩
  · rintro ⟨htaken, htight⟩
    exact hspelled.standsTogether_of_tight hoperand hquiet hwritten hgap htaken htight

theorem rewriteNegation_negates_operand_call :
    rewriteNegation ("a.b(x[i] + (y))".toList ++ negationMarker) =
      .ok ('!' :: "a.b(x[i] + (y))".toList) := by
  obtain ⟨e, hread, hoperand, htaken⟩ : ∃ e, parseExpr "a.b(x[i] + (y))" = .ok e ∧
      e.isOperand = true ∧ e.TakenFromName :=
    ⟨_, by with_unfolding_all rfl, rfl, by trivial⟩
  have hstrings : BracketFreeStrings "a.b(x[i] + (y))" := by decide +kernel
  have htight : Tight "a.b(x[i] + (y))".toList := by decide +kernel
  exact ((rewriteNegation_negates_operand (by decide) (by decide +kernel) hread hoperand).2
    hstrings).mpr ⟨htaken, htight⟩

/-- A bracket in a string is counted with the others, an element is found without the element it is
taken from, and white space ends the operand. -/
theorem rewriteNegation_misses_operand :
    (∀ t ∈ ["f(\")\")", "f(\"(\")", "a[1][2]", "f (x)"], trim t = t ∧
        splitAtMarkerFrom? .outside t.toList = none ∧
          (parseExpr t).toOption.any Expr.isOperand = true) ∧
      rewriteNegation ("f(\")\")".toList ++ negationMarker) = .error .danglingNegation ∧
      rewriteNegation ("f(\"(\")".toList ++ negationMarker) = .ok "f(\"!(\")".toList ∧
      rewriteNegation ("a[1][2]".toList ++ negationMarker) = .ok "a[1]![2]".toList ∧
      rewriteNegation ("f (x)".toList ++ negationMarker) = .ok "f !(x)".toList := by
  decide +kernel

end BlockCode
