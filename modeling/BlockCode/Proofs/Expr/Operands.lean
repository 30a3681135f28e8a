/- # How operands are spelled

An expression that is no operation is a literal or a name, parentheses with a name in front of them
or none, or an element of an array. Its tokens say so: they are one token, or they end with the
bracket that closes what the operand ends with. The brackets between the outer ones match, if those
in strings are left out of account.
-/

import BlockCode.Proofs.Expr.Apart
import BlockCode.Proofs.Fragment.Backwards

namespace BlockCode

/-! ## The texts of tokens -/

/-- The tokens that are brackets. -/
def bracketTokens : List (TokenKind × Char) :=
  [(.leftParen, '('), (.rightParen, ')'), (.leftBracket, '['), (.rightBracket, ']')]

/-- The characters that are brackets. -/
def isBracket (c : Char) : Bool :=
  (bracketTokens.map Prod.snd).contains c

theorem isBracket_of_isWordChar {c : Char} (h : isWordChar c = true) : isBracket c = false := by
  have hbrackets : ∀ d ∈ bracketTokens.map Prod.snd, isWordChar d = false := by decide
  rw [← Bool.not_eq_true]
  intro hbracket
  rw [hbrackets c (List.contains_iff_mem.mp hbracket)] at h
  cases h

/-- What the text of a token says about brackets, and about the words in front of them. -/
structure Token.Shown (token : Token) : Prop where
  bracket : ∀ entry ∈ bracketTokens, token.kind = entry.1 → token.text.toList = [entry.2]
  marker : token.kind = .userMarker → token.text = userMarkerText
  word : token.kind ∈ [.userMarker, .name, .number] → ∀ c ∈ token.text.toList, isWordChar c = true
  other : token.kind ∉ bracketTokens.map Prod.fst → token.kind ∉ [.string, .unclosedString] →
    ∀ c ∈ token.text.toList, isBracket c = false

theorem shown_of_mem_lexFrom {offset : Nat} {text : List Char} {tokens : List Token}
    (h : lexFrom offset text = .ok tokens) : ∀ token ∈ tokens, token.Shown := by
  intro token htoken
  obtain ⟨c, rest, tail, htail, htext⟩ := exists_tokenTail?_of_mem_lexFrom h token htoken
  have hlist : token.text.toList = c :: tail := by rw [htext, String.toList_ofList]
  rcases tokenTail?_cases htail with ⟨hkind, hword⟩ | ⟨hkind, hchars⟩ |
      ⟨-, hkind⟩ | ⟨entry, hmem, hkind, hword⟩
  · have hchars : ∀ d ∈ userMarkerText.toList, isWordChar d = true := by decide
    rw [← hword, ← hlist] at hchars
    refine ⟨fun entry hentry hbracket => ?_, fun _ => String.toList_inj.mp (hlist.trans hword),
      fun _ => hchars, fun _ _ d hd => isBracket_of_isWordChar (hchars d hd)⟩
    have hnone : ∀ entry ∈ bracketTokens, TokenKind.userMarker ≠ entry.1 := by decide
    exact absurd (hkind.symm.trans hbracket) (hnone entry hentry)
  · rw [← hlist] at hchars
    have hnone : ∀ kind ∈ [TokenKind.trueWord, .falseWord, .and, .or, .not, .name, .number],
        kind ≠ .userMarker ∧ ∀ entry ∈ bracketTokens, kind ≠ entry.1 := by
      decide
    obtain ⟨hmarker, hbrackets⟩ := hnone _ hkind
    exact ⟨fun entry hentry hbracket => absurd hbracket (hbrackets entry hentry),
      fun hkind => absurd hkind hmarker, fun _ => hchars,
      fun _ _ d hd => isBracket_of_isWordChar (hchars d hd)⟩
  · have hnone : ∀ kind ∈ [TokenKind.string, .unclosedString],
        kind ∉ [.userMarker, .name, .number] ∧ ∀ entry ∈ bracketTokens, kind ≠ entry.1 := by
      decide
    obtain ⟨hword, hbrackets⟩ := hnone _ hkind
    exact ⟨fun entry hentry hbracket => absurd hbracket (hbrackets entry hentry),
      fun hmarker => absurd (hmarker ▸ .head _) hword, fun hkind => absurd hkind hword,
      fun _ hclosed => absurd hkind hclosed⟩
  · have hoperators : ∀ entry ∈ operatorWords, entry.2 ∉ [.userMarker, .name, .number] ∧
        (∀ bracket ∈ bracketTokens, entry.2 = bracket.1 → entry.1.toList = [bracket.2]) ∧
        (entry.2 ∉ bracketTokens.map Prod.fst → ∀ d ∈ entry.1.toList, isBracket d = false) := by
      decide
    have hoperator := hoperators entry hmem
    rw [hkind, hword, ← hlist] at hoperator
    obtain ⟨hwords, hbrackets, hother⟩ := hoperator
    exact ⟨hbrackets, fun hmarker => absurd (hmarker ▸ .head _) hwords,
      fun hkind => absurd hkind hwords, fun hkind _ => hother hkind⟩

/-! ## The tokens of an operand -/

namespace Expr

/-- Whether the expression is an operation, which is no operand by itself. -/
def isOperation : Expr → Bool
  | .unary .. | .binary .. => true
  | _ => false

/-- The words that stand in front of the parentheses of a group or a call. -/
def callee? : Expr → Option (List String)
  | .group .. => some []
  | .call _ word _ userDefined => some (if userDefined then [userMarkerText, word] else [word])
  | .builtin _ function _ => some [function.name]
  | _ => none

/-- The tokens of an expression that is no operation. -/
inductive SpelledBy : Expr → List Token → Prop
  | leaf {e : Expr} {token : Token} (h : token.leaf? = some e) : SpelledBy e [token]
  | parens {e : Expr} {front inner : List Token} {opening closing : Token}
      (hfront : e.callee? = some (front.map Token.text))
      (hwords : ∀ token ∈ front, token.kind ∈ [.userMarker, .name])
      (hopening : opening.kind = .leftParen)
      (hinner : inner = [] ∨ ∃ items, Derives (.items items) inner)
      (hclosing : closing.kind = .rightParen) :
      SpelledBy e (front ++ opening :: (inner ++ [closing]))
  | element {span : Span} {base position : Expr} {front inner : List Token}
      {opening closing : Token} (htakes : base.TakesPositions) (hbase : SpelledBy base front)
      (hopening : opening.kind = .leftBracket) (hinner : Spells inner position)
      (hclosing : closing.kind = .rightBracket) :
      SpelledBy (.index span base position) (front ++ opening :: (inner ++ [closing]))

end Expr

/-- The only leaf that positions may follow is a name. -/
theorem Token.eq_name_of_leaf? {token : Token} {e : Expr} (h : token.leaf? = some e)
    (htakes : e.TakesPositions) : token.kind = .name ∧ e = .name token.span token.text := by
  rw [Token.leaf?] at h
  split at h <;> cases h
  case h_5 => exact ⟨by assumption, rfl⟩
  all_goals exact htakes.elim

/-- The first bracket of an operand stands behind the words of a call or behind the name that an
element is taken from. -/
theorem Expr.SpelledBy.exists_front {e : Expr} {ws : List Token} (h : e.SpelledBy ws) :
    (∃ token, ws = [token] ∧ token.leaf? = some e) ∨
      ∃ front opening rest, ws = front ++ opening :: rest ∧
        (∀ token ∈ front, token.kind ∈ [.userMarker, .name]) ∧
        (opening.kind = .leftParen ∨ opening.kind = .leftBracket ∧
          ∃ word, e.assignableName? = some word ∧ front.map Token.text = [word]) := by
  induction h with
  | leaf hleaf => exact .inl ⟨_, rfl, hleaf⟩
  | parens _ hwords hopening => exact .inr ⟨_, _, _, rfl, hwords, .inl hopening⟩
  | @element span base position front inner opening closing htakes _ hopening _ _ ih =>
      refine .inr ?_
      rcases ih with ⟨token, rfl, hleaf⟩ | ⟨words, first, rest, rfl, hwords, hfirst⟩
      · obtain ⟨hkind, rfl⟩ := Token.eq_name_of_leaf? hleaf htakes
        exact ⟨[token], _, _, rfl, by simp [hkind], .inr ⟨hopening, _, rfl, rfl⟩⟩
      · exact ⟨words, first, rest ++ opening :: (inner ++ [closing]), by simp, hwords, hfirst⟩

/-- What a phrase says of its tokens where its tree is no operation. -/
def Phrase.OperandSpelled : Phrase → List Token → Prop
  | .expr _ e, ws => e.isOperation = false → e.SpelledBy ws
  | .operators _ base e, ws => e.isOperation = false → base = e ∧ ws = []
  | .positions base e, ws =>
    base.TakesPositions → ∀ front, base.SpelledBy front → e.SpelledBy (front ++ ws)
  | .arguments .., ws => ∃ opening inner closing, ws = opening :: (inner ++ [closing]) ∧
    opening.kind = .leftParen ∧ (inner = [] ∨ ∃ items, Derives (.items items) inner) ∧
      closing.kind = .rightParen
  | .items .., _ => True

theorem Derives.operandSpelled {phrase : Phrase} {ws : List Token} (h : Derives phrase ws)
    (hmarkers : ∀ token ∈ ws, token.kind = .userMarker → token.text = userMarkerText) :
    phrase.OperandSpelled ws := by
  induction h with
  | chain _ _ _ ihfirst ihrest =>
      intro he
      rw [List.forall_mem_append] at hmarkers
      obtain ⟨rfl, rfl⟩ := ihrest hmarkers.2 he
      rw [List.append_nil]
      exact ihfirst hmarkers.1 he
  | noOperator => exact fun _ => ⟨rfl, rfl⟩
  | operator _ _ _ _ _ ihrest =>
      intro he
      rw [List.forall_mem_cons, List.forall_mem_append] at hmarkers
      obtain ⟨rfl, -⟩ := ihrest hmarkers.2.2 he
      cases he
  | negate | not | raised =>
      intro he
      cases he
  | unsigned _ ih | unraised _ ih => exact ih hmarkers
  | number htoken | string htoken | trueWord htoken | falseWord htoken =>
      exact fun _ => .leaf (by rw [Token.leaf?, htoken])
  | group hopening hinner hclosing =>
      intro _
      exact @Expr.SpelledBy.parens _ [] _ _ _ rfl (by simp) hopening (.inr ⟨_, .lastItem hinner⟩)
        hclosing
  | @userCall marker name args stop us hmarker hname _ ih =>
      intro _
      rw [List.forall_mem_cons, List.forall_mem_cons] at hmarkers
      obtain ⟨opening, inner, closing, rfl, hopening, hinner, hclosing⟩ := ih hmarkers.2.2
      have hwords : ∀ token ∈ [marker, name], token.kind ∈ [.userMarker, .name] := by
        simp [hmarker, hname]
      refine @Expr.SpelledBy.parens _ [marker, name] _ _ _ ?_ hwords hopening hinner hclosing
      rw [List.map_cons, hmarkers.1 hmarker]
      rfl
  | @name token e us htoken _ ih =>
      intro _
      rw [List.forall_mem_cons] at hmarkers
      exact ih hmarkers.2 trivial [token] (.leaf (by rw [Token.leaf?, htoken]))
  | @call token args stop e us vs htoken hplain _ _ ihargs ihrest =>
      intro _
      rw [List.forall_mem_cons, List.forall_mem_append] at hmarkers
      obtain ⟨opening, inner, closing, rfl, hopening, hinner, hclosing⟩ := ihargs hmarkers.2.1
      refine ihrest hmarkers.2.2 rfl ([token] ++ opening :: (inner ++ [closing])) ?_
      exact .parens rfl (by simp [htoken]) hopening hinner hclosing
  | @builtin token function args stop e us vs htoken hbuiltin _ _ _ ihargs ihrest =>
      intro _
      rw [List.forall_mem_cons, List.forall_mem_append] at hmarkers
      obtain ⟨opening, inner, closing, rfl, hopening, hinner, hclosing⟩ := ihargs hmarkers.2.1
      have hname : function.name = token.text := by
        simpa using List.find?_some hbuiltin
      refine ihrest hmarkers.2.2 trivial ([token] ++ opening :: (inner ++ [closing])) ?_
      exact .parens (by rw [Expr.callee?, hname]; rfl) (by simp [htoken]) hopening hinner hclosing
  | noPosition =>
      intro _ front hfront
      rwa [List.append_nil]
  | @position opening closing base index e us vs hopening hindex hclosing _ _ ihrest =>
      intro htakes front hfront
      rw [List.forall_mem_cons, List.forall_mem_append, List.forall_mem_cons] at hmarkers
      have hspelled := ihrest hmarkers.2.2.2 trivial (front ++ opening :: (us ++ [closing]))
        (.element htakes hfront hopening hindex hclosing)
      simpa using hspelled
  | noArgument hopening hclosing =>
      exact ⟨_, [], _, rfl, hopening, .inl rfl, hclosing⟩
  | arguments hopening hargs hclosing =>
      exact ⟨_, _, _, rfl, hopening, .inr ⟨_, hargs⟩, hclosing⟩
  | lastItem | nextItem => trivial

/-! ## Where the tokens of an operand stand -/

namespace Written

variable {tokens front inner : List Token} {text gaps : List Char}

theorem gaps_append (hgaps : ∀ c ∈ gaps, isTokenGap c = true) (h : Written tokens text) :
    Written tokens (gaps ++ text) := by
  induction gaps with
  | nil => exact h
  | cons c gaps ih =>
      rw [List.forall_mem_cons] at hgaps
      exact .gap hgaps.1 (ih hgaps.2)

theorem append_gaps (hgaps : ∀ c ∈ gaps, isTokenGap c = true) (h : Written tokens text) :
    Written tokens (text ++ gaps) := by
  induction h with
  | nil =>
      rw [List.nil_append, ← List.append_nil gaps]
      exact gaps_append hgaps .nil
  | gap hgap _ ih => exact .gap hgap ih
  | token token _ ih =>
      rw [List.append_assoc]
      exact .token token ih

/-- A text of tokens is cut where the tokens are. -/
theorem exists_eq_append (h : Written (front ++ inner) text) :
    ∃ before behind, text = before ++ behind ∧ Written front before ∧ Written inner behind := by
  induction front generalizing text with
  | nil => exact ⟨[], text, rfl, .nil, h⟩
  | cons token front ih =>
      obtain ⟨gaps, rest, rfl, hgaps, hrest⟩ := h.exists_eq_of_cons
      obtain ⟨before, behind, rfl, hbefore, hbehind⟩ := ih hrest
      refine ⟨gaps ++ (token.text.toList ++ before), behind, by simp, ?_, hbehind⟩
      exact gaps_append hgaps (.token token hbefore)

/-- White space in front of a token counts to what stands before it. -/
theorem exists_eq_append_cons {token : Token} (h : Written (front ++ token :: inner) text) :
    ∃ before behind, text = before ++ (token.text.toList ++ behind) ∧ Written front before ∧
      Written inner behind := by
  obtain ⟨before, rest, rfl, hbefore, hrest⟩ := h.exists_eq_append
  obtain ⟨gaps, behind, rfl, hgaps, hbehind⟩ := hrest.exists_eq_of_cons
  exact ⟨before ++ gaps, behind, by simp, hbefore.append_gaps hgaps, hbehind⟩

/-- Where nothing is white space, the text is that of the tokens alone. -/
theorem eq_flatMap (h : Written tokens text) (htext : ∀ c ∈ text, isTokenGap c = false) :
    text = tokens.flatMap fun token => token.text.toList := by
  induction h with
  | nil => rfl
  | gap hgap _ _ =>
      have hno := htext _ (.head _)
      rw [hgap] at hno
      cases hno
  | token token _ ih =>
      rw [List.forall_mem_append] at htext
      rw [List.flatMap_cons, ← ih htext.2]

/-- What holds of white space and of the characters of the tokens holds of the text. -/
theorem forall_mem {P : Char → Prop} (h : Written tokens text)
    (hgap : ∀ c, isTokenGap c = true → P c)
    (htokens : ∀ token ∈ tokens, ∀ c ∈ token.text.toList, P c) : ∀ c ∈ text, P c := by
  induction h with
  | nil => exact List.forall_mem_nil _
  | gap hc _ ih => exact List.forall_mem_cons.mpr ⟨hgap _ hc, ih htokens⟩
  | token token _ ih =>
      rw [List.forall_mem_cons] at htokens
      exact List.forall_mem_append.mpr ⟨htokens.1, ih htokens.2⟩

/-- A text that does not end with white space ends with its last token. -/
theorem exists_eq_concat {closing : Token} (h : Written (tokens ++ [closing]) text)
    (hlast : ∀ c ∈ text.getLast?, isTokenGap c = false) :
    ∃ before, text = before ++ closing.text.toList ∧ Written tokens before := by
  obtain ⟨before, behind, rfl, hbefore, hbehind⟩ := h.exists_eq_append_cons
  refine ⟨before, ?_, hbefore⟩
  rcases List.eq_nil_or_concat' behind with rfl | ⟨front, c, rfl⟩
  · rw [List.append_nil]
  · have hgap := hlast c (by simp)
    rw [hbehind.gaps c (by simp)] at hgap
    cases hgap

/-- Tokens between two others, the last of the text, stand between the texts of these. -/
theorem exists_enclosed {opening closing : Token}
    (h : Written (front ++ opening :: (inner ++ [closing])) text)
    (hlast : ∀ c ∈ text.getLast?, isTokenGap c = false) :
    ∃ before within, text = before ++ (opening.text.toList ++ (within ++ closing.text.toList)) ∧
      Written front before ∧ Written inner within := by
  rw [← List.cons_append, ← List.append_assoc] at h
  obtain ⟨rest, rfl, hrest⟩ := h.exists_eq_concat hlast
  obtain ⟨before, within, rfl, hbefore, hwithin⟩ := hrest.exists_eq_append_cons
  exact ⟨before, within, by simp, hbefore, hwithin⟩

end Written

/-! ## Brackets between the tokens -/

theorem isBracket_of_isTokenGap {c : Char} (h : isTokenGap c = true) : isBracket c = false := by
  have hbrackets : ∀ d ∈ bracketTokens.map Prod.snd, isTokenGap d = false := by decide
  rw [← Bool.not_eq_true]
  intro hbracket
  rw [hbrackets c (List.contains_iff_mem.mp hbracket)] at h
  cases h

/-- The token has brackets in its text only if it is one. -/
structure Token.Quiet (token : Token) : Prop where
  shown : token.Shown
  string : token.kind ∈ [.string, .unclosedString] →
    ∀ c ∈ token.text.toList, isBracket c = false

theorem Token.Quiet.other {token : Token} (h : token.Quiet)
    (hkind : token.kind ∉ bracketTokens.map Prod.fst) :
    ∀ c ∈ token.text.toList, isBracket c = false := by
  by_cases hstring : token.kind ∈ [.string, .unclosedString]
  · exact h.string hstring
  · exact h.shown.other hkind hstring

theorem BracketsMatch.of_forall {brackets : Char × Char} (hmem : brackets ∈ operandBrackets)
    {text : List Char} (h : ∀ c ∈ text, isBracket c = false) :
    BracketsMatch brackets.1 brackets.2 text := by
  have hboth : ∀ brackets ∈ operandBrackets,
      isBracket brackets.1 = true ∧ isBracket brackets.2 = true := by
    decide
  refine .of_notMem (fun hopening => ?_) fun hclosing => ?_
  · cases (hboth brackets hmem).1.symm.trans (h _ hopening)
  · cases (hboth brackets hmem).2.symm.trans (h _ hclosing)

/-- The brackets in the text match, wherever white space stands between the tokens. -/
def TokensMatch (brackets : Char × Char) (tokens : List Token) : Prop :=
  ∀ text, Written tokens text → BracketsMatch brackets.1 brackets.2 text

/-- The tokens are parentheses or square brackets that belong together. -/
def Enclose (opening closing : Token) : Prop :=
  opening.kind = .leftParen ∧ closing.kind = .rightParen ∨
    opening.kind = .leftBracket ∧ closing.kind = .rightBracket

theorem Enclose.exists_brackets {opening closing : Token} (h : Enclose opening closing)
    (hopening : opening.Shown) (hclosing : closing.Shown) :
    ∃ brackets ∈ operandBrackets, opening.text.toList = [brackets.1] ∧
      closing.text.toList = [brackets.2] := by
  rcases h with ⟨hleft, hright⟩ | ⟨hleft, hright⟩
  · exact ⟨('(', ')'), .head _, hopening.bracket _ (.head _) hleft,
      hclosing.bracket _ (.tail _ (.head _)) hright⟩
  · exact ⟨('[', ']'), .tail _ (.head _),
      hopening.bracket _ (.tail _ (.tail _ (.head _))) hleft,
      hclosing.bracket _ (.tail _ (.tail _ (.tail _ (.head _)))) hright⟩

namespace TokensMatch

variable {brackets : Char × Char} (hmem : brackets ∈ operandBrackets) {ws vs : List Token}

include hmem

theorem nil : TokensMatch brackets [] := fun _ h =>
  .of_forall hmem fun c hc => isBracket_of_isTokenGap (h.gaps c hc)

omit hmem in
theorem append (h : TokensMatch brackets ws) (h' : TokensMatch brackets vs) :
    TokensMatch brackets (ws ++ vs) := by
  intro text hwritten
  obtain ⟨before, behind, rfl, hbefore, hbehind⟩ := hwritten.exists_eq_append
  exact (h before hbefore).append (h' behind hbehind)

theorem cons {token : Token} (htoken : token.Quiet)
    (hkind : token.kind ∉ bracketTokens.map Prod.fst) (h : TokensMatch brackets ws) :
    TokensMatch brackets (token :: ws) := by
  intro text hwritten
  obtain ⟨gaps, rest, rfl, hgaps, hrest⟩ := hwritten.exists_eq_of_cons
  refine .append (.of_forall hmem ?_) (h rest hrest)
  exact List.forall_mem_append.mpr
    ⟨fun c hc => isBracket_of_isTokenGap (hgaps c hc), htoken.other hkind⟩

theorem enclosed {opening closing : Token} (hopening : opening.Shown) (hclosing : closing.Shown)
    (henclose : Enclose opening closing) (h : TokensMatch brackets ws) :
    TokensMatch brackets (opening :: (ws ++ [closing])) := by
  intro text hwritten
  obtain ⟨outer, houter, hleft, hright⟩ := henclose.exists_brackets hopening hclosing
  obtain ⟨gaps, rest, rfl, hgaps, hrest⟩ := hwritten.exists_eq_of_cons
  obtain ⟨within, behind, rfl, hwithin, hbehind⟩ := hrest.exists_eq_append_cons
  have hmatch := h within hwithin
  have hinner : BracketsMatch brackets.1 brackets.2 (outer.1 :: (within ++ [outer.2])) := by
    by_cases hsame : outer = brackets
    · have hne : ∀ brackets ∈ operandBrackets, brackets.1 ≠ brackets.2 := by decide
      rw [hsame]
      exact hmatch.enclosed (hne brackets hmem)
    · have hother : ∀ brackets ∈ operandBrackets, ∀ outer ∈ operandBrackets, outer ≠ brackets →
          BracketsMatch brackets.1 brackets.2 [outer.1] ∧
            BracketsMatch brackets.1 brackets.2 [outer.2] := by
        decide
      obtain ⟨hfirst, hlast⟩ := hother brackets hmem outer houter hsame
      exact hfirst.append (hmatch.append hlast)
  have hgaps : BracketsMatch brackets.1 brackets.2 gaps :=
    .of_forall hmem fun c hc => isBracket_of_isTokenGap (hgaps c hc)
  have hwhole := (hgaps.append hinner).append (nil hmem behind hbehind)
  rw [hleft, hright]
  simpa using hwhole

end TokensMatch

/-- The brackets in an expression match, where no string of it has any. -/
theorem Derives.tokensMatch {brackets : Char × Char} (hmem : brackets ∈ operandBrackets)
    {phrase : Phrase} {ws : List Token} (h : Derives phrase ws)
    (hquiet : ∀ token ∈ ws, token.Quiet) : TokensMatch brackets ws := by
  have hnil := TokensMatch.nil hmem
  have cons {token : Token} {kind : TokenKind} {ws : List Token} (hkind : token.kind = kind)
      (htoken : token.Quiet) (hother : kind ∉ bracketTokens.map Prod.fst)
      (hrest : TokensMatch brackets ws) : TokensMatch brackets (token :: ws) :=
    .cons hmem htoken (hkind ▸ hother) hrest
  induction h with
  | chain _ _ _ ihfirst ihrest =>
      rw [List.forall_mem_append] at hquiet
      exact (ihfirst hquiet.1).append (ihrest hquiet.2)
  | noOperator | noPosition => exact hnil
  | operator _ htoken _ _ ihright ihrest =>
      rw [List.forall_mem_cons, List.forall_mem_append] at hquiet
      have hsubset : bracketTokens.map Prod.fst ⊆
          [.leftParen, .rightParen, .leftBracket, .rightBracket, .comma, .userMarker] := by
        decide
      have hother := fun hbracket => notMem_of_operator? htoken (hsubset hbracket)
      exact cons rfl hquiet.1 hother ((ihright hquiet.2.1).append (ihrest hquiet.2.2))
  | negate htoken _ ih | not htoken _ ih =>
      rw [List.forall_mem_cons] at hquiet
      exact cons htoken hquiet.1 (by decide) (ih hquiet.2)
  | unsigned _ ih | unraised _ ih => exact ih hquiet
  | raised _ htoken _ ihbase ihexponent =>
      rw [List.forall_mem_append, List.forall_mem_cons] at hquiet
      exact (ihbase hquiet.1).append (cons htoken hquiet.2.1 (by decide) (ihexponent hquiet.2.2))
  | number htoken | string htoken | trueWord htoken | falseWord htoken =>
      exact cons htoken (hquiet _ (.head _)) (by decide) hnil
  | group hopening _ hclosing ih =>
      rw [List.forall_mem_cons, List.forall_mem_append, List.forall_mem_singleton] at hquiet
      exact .enclosed hmem hquiet.1.shown hquiet.2.2.shown (.inl ⟨hopening, hclosing⟩)
        (ih hquiet.2.1)
  | userCall hmarker hname _ ih =>
      rw [List.forall_mem_cons, List.forall_mem_cons] at hquiet
      exact cons hmarker hquiet.1 (by decide) (cons hname hquiet.2.1 (by decide) (ih hquiet.2.2))
  | name htoken _ ih =>
      rw [List.forall_mem_cons] at hquiet
      exact cons htoken hquiet.1 (by decide) (ih hquiet.2)
  | call htoken _ _ _ ihargs ihrest | builtin htoken _ _ _ _ ihargs ihrest =>
      rw [List.forall_mem_cons, List.forall_mem_append] at hquiet
      exact cons htoken hquiet.1 (by decide) ((ihargs hquiet.2.1).append (ihrest hquiet.2.2))
  | @position opening closing base index e us vs hopening _ hclosing _ ihindex ihrest =>
      rw [List.forall_mem_cons, List.forall_mem_append, List.forall_mem_cons] at hquiet
      have hfirst : TokensMatch brackets (opening :: (us ++ [closing])) :=
        .enclosed hmem hquiet.1.shown hquiet.2.2.1.shown (.inr ⟨hopening, hclosing⟩)
          (ihindex hquiet.2.1)
      simpa using hfirst.append (ihrest hquiet.2.2.2)
  | noArgument hopening hclosing =>
      rw [List.forall_mem_cons, List.forall_mem_singleton] at hquiet
      exact .enclosed hmem hquiet.1.shown hquiet.2.shown (.inl ⟨hopening, hclosing⟩) hnil
  | arguments hopening _ hclosing ih =>
      rw [List.forall_mem_cons, List.forall_mem_append, List.forall_mem_singleton] at hquiet
      exact .enclosed hmem hquiet.1.shown hquiet.2.2.shown (.inl ⟨hopening, hclosing⟩)
        (ih hquiet.2.1)
  | lastItem _ ih => exact ih hquiet
  | nextItem _ hcomma _ ihe ihrest =>
      rw [List.forall_mem_append, List.forall_mem_cons] at hquiet
      exact (ihe hquiet.1).append (cons hcomma hquiet.2.1 (by decide) (ihrest hquiet.2.2))

end BlockCode
