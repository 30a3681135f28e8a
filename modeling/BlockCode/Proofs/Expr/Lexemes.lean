/- # Words of expressions

What the texts in an expression look like that was read: a number starts with a digit, and a
name starts as the lexer lets a name start. The lexer gives its tokens such texts, and the
grammar hands the texts of tokens on to the tree as they are.
-/

import BlockCode.Fragment.Prepare
import BlockCode.Proofs.Expr.Parts
import BlockCode.Proofs.Outcome

namespace BlockCode

/-- The token's text starts as texts of its kind do. -/
structure Token.Worded (token : Token) : Prop where
  number : token.kind = .number → token.text.toList.head?.any isAsciiDigit = true
  name : token.kind = .name → token.text.toList.head?.any isNameStart = true

namespace Expr

/-- The expression's own text starts as texts of its kind do. -/
def OwnWorded : Expr → Prop
  | .number _ text => text.toList.head?.any isAsciiDigit = true
  | .name _ word => word.toList.head?.any isNameStart = true
  | _ => True

/-- The texts of the numbers and names in the expression start as such texts do. -/
def Worded (e : Expr) : Prop :=
  ∀ part ∈ e.parts, part.OwnWorded

theorem Worded.own {e : Expr} (h : e.Worded) : e.OwnWorded :=
  h e e.mem_parts_self

theorem worded_unary {span : Span} {op : UnaryOp} {operand : Expr} :
    (unary span op operand).Worded ↔ operand.Worded := by
  rw [Worded, parts, List.forall_mem_cons]
  exact and_iff_right trivial

end Expr

/-- A token that has the form of a name is a name, a truth value or a connective. -/
theorem wordKind_mem (word : List Char) :
    wordKind word ∈ [.trueWord, .falseWord, .and, .or, .not, .name] := by
  rw [wordKind]
  cases hfind : keywords.find? fun entry => entry.1 == lowerAscii (String.ofList word) with
  | none => decide
  | some entry =>
      have hkeywords : ∀ entry ∈ keywords,
          entry.2 ∈ [TokenKind.trueWord, .falseWord, .and, .or, .not, .name] := by decide
      exact hkeywords entry (List.mem_of_find?_eq_some hfind)

theorem wordKind_ne_number (word : List Char) : wordKind word ≠ .number := by
  intro hkind
  have hmem := wordKind_mem word
  rw [hkind] at hmem
  revert hmem
  decide

/-- The first character settles the class of a token. -/
theorem worded_of_tokenTail? {c : Char} {rest tail : List Char} {kind : TokenKind}
    (h : tokenTail? c rest = some (kind, tail)) (span : Span) :
    Token.Worded ⟨kind, span, String.ofList (c :: tail)⟩ := by
  rw [tokenTail?] at h
  split at h
  · rename_i hstart
    refine ⟨fun hkind => ?_, fun _ => by simpa using hstart⟩
    split at h
    · cases h
      cases hkind
    · dsimp only at h
      rw [Option.some.injEq, Prod.mk.injEq] at h
      exact absurd (h.1.trans hkind) (wordKind_ne_number _)
  · split at h
    · rename_i hdigit
      cases h
      exact ⟨fun _ => by simpa using hdigit, fun hkind => by cases hkind⟩
    · split at h
      · cases h
        refine ⟨fun hkind => ?_, fun hkind => ?_⟩
        · dsimp only at hkind
          split at hkind <;> cases hkind
        · dsimp only at hkind
          split at hkind <;> cases hkind
      · have hoperators : ∀ entry ∈ operatorWords, entry.2 ≠ .number ∧ entry.2 ≠ .name := by
          decide
        obtain ⟨⟨word, kind'⟩, hfind, heq⟩ := Option.map_eq_some_iff.mp h
        cases heq
        have hne := hoperators _ (List.mem_of_find?_eq_some hfind)
        exact ⟨fun hkind => absurd hkind hne.1, fun hkind => absurd hkind hne.2⟩

/-- Every token of a text is the longest one at the place where it stands. -/
theorem exists_tokenTail?_of_mem_lexFrom {offset : Nat} {text : List Char} {tokens : List Token}
    (h : lexFrom offset text = .ok tokens) :
    ∀ token ∈ tokens, ∃ c rest tail, tokenTail? c rest = some (token.kind, tail) ∧
      token.text = String.ofList (c :: tail) := by
  fun_induction lexFrom offset text generalizing tokens with
  | case1 => cases h; simp
  | case2 offset c rest hgap ih => exact ih h
  | case3 => cases h
  | case4 offset c rest hgap kind tail htail stop =>
      rename_i ih
      cases hrest : lexFrom stop (rest.drop tail.length) with
      | error e =>
          rw [hrest] at h
          cases h
      | ok tokens' =>
          rw [hrest] at h
          cases h
          rw [List.forall_mem_cons]
          exact ⟨⟨c, rest, tail, htail, rfl⟩, ih hrest⟩

/-- The tokens of a text are worded. -/
theorem worded_of_mem_lexFrom {offset : Nat} {text : List Char} {tokens : List Token}
    (h : lexFrom offset text = .ok tokens) : ∀ token ∈ tokens, token.Worded := by
  intro token htoken
  obtain ⟨kind, span, word⟩ := token
  obtain ⟨c, rest, tail, htail, rfl⟩ := exists_tokenTail?_of_mem_lexFrom h _ htoken
  exact worded_of_tokenTail? htail span

/-- The rules take the texts of worded tokens as they are. -/
theorem Expr.givenByRules_ownWorded : GivenByRules Token.Worded OwnWorded where
  number _ htoken hkind := htoken.number hkind
  string _ _ := trivial
  bool _ _ := trivial
  name _ htoken hkind := htoken.name hkind
  index _ _ _ _ := trivial
  call _ _ _ _ _ _ _ := trivial
  builtin _ _ _ _ := trivial
  unary _ _ _ := trivial
  binary _ _ _ _ := trivial
  group _ _ := trivial

/-- The tokens of a text that was read spell the expression. -/
theorem exists_spells_of_parseExpr {text : String} {e : Expr} (h : parseExpr text = .ok e) :
    ∃ tokens, lex text = .ok tokens ∧ Spells tokens e := by
  rw [parseExpr, lexExpr] at h
  cases hlex : lex text with
  | error err =>
      rw [hlex] at h
      cases h
  | ok tokens =>
      rw [hlex] at h
      exact ⟨tokens, rfl, reads_parseAbove_lowest_iff_spells.mp (parseTokens_eq_ok_iff.mp h)⟩

/-- An expression that was read is worded. -/
theorem worded_of_parseExpr {text : String} {e : Expr} (h : parseExpr text = .ok e) :
    e.Worded := by
  obtain ⟨tokens, hlex, hspells⟩ := exists_spells_of_parseExpr h
  exact hspells.eachPart Expr.givenByRules_ownWorded (worded_of_mem_lexFrom hlex)

/-- An expression in a slot is worded. -/
theorem worded_of_prepare {text : String} {e : Expr} (h : prepare text = .ok e) : e.Worded := by
  simp only [prepare, bind_eq_ok_iff] at h
  obtain ⟨checked, _, e', hparse, _, _, heq⟩ := h
  cases heq
  exact worded_of_parseExpr hparse

/-- The names of an expression pass exactly where no segment of one is reserved. -/
theorem checkNames_eq_ok_iff {e : Expr} : checkNames e = .ok () ↔
    ∀ part ∈ e.parts, ∀ word, part.ownName? = some word → reservedSegment? word = none := by
  have hfind : checkNames e = .ok () ↔
      e.parts.findSome? (fun part => part.ownName?.bind reservedSegment?) = none := by
    rw [checkNames]
    split <;> simp_all only [reduceCtorEq]
  rw [hfind, List.findSome?_eq_none_iff]
  simp only [Option.bind_eq_none_iff]

end BlockCode
