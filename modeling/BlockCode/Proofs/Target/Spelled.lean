/- # Spellings that are read back

Three of the dialects spell operators, literals and names so that the reader of expressions takes
them for what they stand for.
-/

import BlockCode.Target.ExprPrinter
import BlockCode.Proofs.Expr.Relexing
import BlockCode.Proofs.Text.Cutting

namespace BlockCode

/-- The reader takes the spellings of the dialect for what they stand for. -/
structure Dialect.IsReadBack (d : Dialect) : Prop where
  symbol : ∀ op, (op = .floorDivide → ∃ symbol, d.floorDivision = .operator symbol) →
    ∃ c tail kind, (d.symbol op).toList = c :: tail ∧ kind.binaryOp? = some op ∧
      ∀ rest, tokenTail? c (tail ++ ' ' :: rest) = some (kind, tail)
  not : ∀ offset, ∃ token : Token, token.kind = .not ∧
    ∀ rest, (∀ c ∈ rest.head?, c ≠ '=') → LexesBefore rest offset d.not.toList [token]
  not_head : ∀ c ∈ d.not.toList.head?, c ≠ '='
  trueWord : IsLexeme .trueWord d.trueWord
  falseWord : IsLexeme .falseWord d.falseWord
  quotedChar : QuotesChars d.quotedChar
  openIndex : d.openIndex = "["
  closeIndex : d.closeIndex = "]"

theorem quotesChars_backslashQuoted : QuotesChars Dialect.backslashQuoted := by
  intro c
  rw [Dialect.backslashQuoted]
  by_cases hc : (c == '\\' || c == '"') = true
  · rw [if_pos hc]
    refine .inl ⟨rfl, ?_⟩
    rintro rfl
    cases hc
  · rw [if_neg hc]
    refine .inr ⟨rfl, ?_, ?_⟩
    · rintro rfl
      exact hc rfl
    · rintro rfl
      exact hc rfl

theorem isLexeme_of_tokenTail? {text : String} {c : Char} {tail : List Char} {kind : TokenKind}
    (htext : text.toList = c :: tail) (h : tokenTail? c tail = some (kind, tail))
    (hc : isNameStart c = true) : IsLexeme kind text :=
  ⟨c, tail, htext, fun _ hrest => tokenTail?_append h (.inl hc) hrest.endsWord⟩

/-- An exclamation mark negates unless an equals sign follows it. -/
theorem tokenTail?_exclamation {rest : List Char} (h : ∀ c ∈ rest.head?, c ≠ '=') :
    tokenTail? '!' rest = some (.not, []) := by
  cases rest with
  | nil => rfl
  | cons d rest =>
      have hd : ('=' == d) = false := by
        rw [beq_eq_false_iff_ne]
        exact (h d rfl).symm
      rw [tokenTail?, if_neg (by decide), if_neg (by decide), if_neg (by decide)]
      simp [operatorWords, startsWithWord, afterWord?, hd]

theorem exists_not_exclamation (offset : Nat) :
    ∃ token : Token, token.kind = .not ∧ ∀ rest, (∀ c ∈ rest.head?, c ≠ '=') →
      LexesBefore rest offset "!".toList [token] :=
  ⟨.spelled .not offset ['!'], rfl, fun _ hrest => .single (tokenTail?_exclamation hrest)⟩

theorem Dialect.isReadBack_javaScript : javaScript.IsReadBack where
  symbol op hop := by
    cases op with
    | floorDivide =>
        obtain ⟨symbol, hsymbol⟩ := hop rfl
        cases hsymbol
    | _ => exact ⟨_, _, _, rfl, rfl, fun _ => rfl⟩
  not := exists_not_exclamation
  not_head := by simp [javaScript]
  trueWord := isLexeme_of_tokenTail? rfl (by decide) (by decide)
  falseWord := isLexeme_of_tokenTail? rfl (by decide) (by decide)
  quotedChar := quotesChars_backslashQuoted
  openIndex := rfl
  closeIndex := rfl

/-- A word between spaces is one token. -/
theorem tokenTail?_word {c : Char} {tail : List Char} {kind : TokenKind}
    (h : tokenTail? c tail = some (kind, tail)) (hc : isNameStart c = true) (rest : List Char) :
    tokenTail? c (tail ++ ' ' :: rest) = some (kind, tail) :=
  tokenTail?_append h (.inl hc) (breaks_cons.mpr (by decide)).endsWord

theorem Dialect.isReadBack_python : python.IsReadBack where
  symbol op _ := by
    cases op with
    | and => exact ⟨'a', _, .and, rfl, rfl, tokenTail?_word (by decide) (by decide)⟩
    | or => exact ⟨'o', _, .or, rfl, rfl, tokenTail?_word (by decide) (by decide)⟩
    | _ => exact ⟨_, _, _, rfl, rfl, fun _ => rfl⟩
  not offset := by
    refine ⟨.spelled .not offset "not".toList, rfl, fun rest _ => ?_⟩
    have hword : LexesBefore ([' '] ++ rest) offset "not".toList
        [.spelled .not offset "not".toList] :=
      .single (tokenTail?_word (c := 'n') (by decide) (by decide) rest)
    exact hword.append (.gap rfl .nil)
  not_head := by simp [python]
  trueWord := isLexeme_of_tokenTail? rfl (by decide) (by decide)
  falseWord := isLexeme_of_tokenTail? rfl (by decide) (by decide)
  quotedChar := quotesChars_backslashQuoted
  openIndex := rfl
  closeIndex := rfl

theorem Dialect.isReadBack_ruby : ruby.IsReadBack where
  symbol op hop := by
    cases op with
    | floorDivide =>
        obtain ⟨symbol, hsymbol⟩ := hop rfl
        cases hsymbol
    | _ => exact ⟨_, _, _, rfl, rfl, fun _ => rfl⟩
  not := exists_not_exclamation
  not_head := by simp [ruby]
  trueWord := isLexeme_of_tokenTail? rfl (by decide) (by decide)
  falseWord := isLexeme_of_tokenTail? rfl (by decide) (by decide)
  quotedChar c := by
    by_cases hc : c = '#'
    · rw [hc]
      exact .inl ⟨rfl, by decide⟩
    · have hquoted : ruby.quotedChar c = backslashQuoted c := if_neg (by simpa using hc)
      rw [hquoted]
      exact quotesChars_backslashQuoted c
  openIndex := rfl
  closeIndex := rfl

/-- A string literal is one token whatever follows it. -/
theorem isLexeme_stringLiteral {d : Dialect} (h : QuotesChars d.quotedChar) (contents : String) :
    IsLexeme .string (d.stringLiteral contents) := by
  refine ⟨'"', contents.toList.flatMap d.quotedChar ++ ['"'], ?_, fun rest _ => ?_⟩
  · rw [Dialect.stringLiteral, String.toList_ofList, List.cons_append]
  · rw [tokenTail?, if_neg (by decide), if_neg (by decide), if_pos (by rfl), List.append_assoc,
      List.singleton_append, stringTail_quoted h]
    rfl

/-- What is quoted in a string literal is what the literal stands for. -/
theorem literalContents_stringLiteral {d : Dialect} (h : QuotesChars d.quotedChar)
    (contents : String) : literalContents (d.stringLiteral contents) = contents := by
  rw [literalContents, Dialect.stringLiteral, String.toList_ofList, List.cons_append,
    List.tail_cons, List.dropLast_concat, unescape_quoted h, String.ofList_toList]

/-- Only a comparison starts with an equals sign. -/
theorem IsLexeme.head_ne {kind : TokenKind} {text : String} (h : IsLexeme kind text)
    (hkind : kind ≠ .equal) : ∀ c ∈ text.toList.head?, c ≠ '=' := by
  obtain ⟨c, tail, htext, htail⟩ := h
  rw [htext]
  rintro d hd rfl
  obtain rfl : c = '=' := by simpa using hd
  have hfound := htail [] breaks_nil
  rw [tokenTail?, if_neg (by decide), if_neg (by decide), if_neg (by decide)] at hfound
  obtain ⟨⟨word, kind'⟩, hfind, heq⟩ := Option.map_eq_some_iff.mp hfound
  have hoperators : ∀ entry ∈ operatorWords, entry.1.toList.head? = some '=' →
      entry.2 = .equal := by
    decide
  have hword : word.toList <+: '=' :: (tail ++ []) := by
    have hstart := List.find?_some hfind
    exact startsWithWord_iff.mp hstart
  apply hkind
  rw [← (Prod.mk.inj heq).1]
  apply hoperators _ (List.mem_of_find?_eq_some hfind)
  cases hchars : word.toList with
  | nil =>
      have hsome : ∀ entry ∈ operatorWords, entry.1.toList ≠ [] := by decide
      exact absurd hchars (hsome _ (List.mem_of_find?_eq_some hfind))
  | cons w word =>
      rw [hchars] at hword
      rw [List.head?_cons, (List.cons_prefix_cons.mp hword).1]

end BlockCode
