/- # Commas

How many items a list slot has is counted without reading the slot, by the commas in its folded
text. Here the count is held against what the slot reads as. Commas stand between the items,
between the arguments of calls inside the items, and in string literals; they stand nowhere else,
and moving negations neither adds nor removes any. So the count is right where no item is written
with a comma of its own.
-/

import BlockCode.Check.Function
import BlockCode.Proofs.Expr.Written
import Mathlib.Algebra.GroupWithZero.Nat
import BlockCode.Proofs.Text.Cutting

namespace BlockCode

theorem isEmpty_trimChars_iff {text : List Char} :
    (trimChars text).isEmpty = true ↔ ∀ c ∈ text, isBlank c = true := by
  constructor
  · intro h
    obtain ⟨before, behind, htext, hbefore, hbehind⟩ := exists_eq_append_trimChars text
    rw [List.isEmpty_iff.mp h, List.append_nil] at htext
    rw [htext]
    exact List.forall_mem_append.mpr ⟨hbefore, hbehind⟩
  · intro h
    have htrim : trimChars (text ++ [] ++ []) = [] := trimChars_enclosed h (by simp) (by simp)
    rw [List.append_nil, List.append_nil] at htrim
    rw [htrim]
    rfl

namespace Expr

/-- The commas that the expression itself is written with: between the arguments of a call, and
in a string. -/
def ownCommas : Expr → Nat
  | .string _ contents => contents.toList.count ','
  | .call _ _ args _ | .builtin _ _ args => args.length - 1
  | _ => 0

/-- The commas that the expression is written with, those of its parts included. -/
def commas (e : Expr) : Nat :=
  (e.parts.map ownCommas).sum

/-- The commas that the expressions are written with, one after the other: their own and those
between them. -/
def commasOfAll (args : List Expr) : Nat :=
  (args.map commas).sum + (args.length - 1)

theorem sum_ownCommas_partsOfAll (args : List Expr) :
    ((partsOfAll args).map ownCommas).sum = (args.map commas).sum := by
  induction args with
  | nil => rfl
  | cons e args ih =>
      rw [partsOfAll, List.map_append, List.sum_append, ih, List.map_cons, List.sum_cons, commas]

theorem commas_index (span : Span) (base position : Expr) :
    (index span base position).commas = base.commas + position.commas := by
  simp [commas, parts, ownCommas]

theorem commas_call (span : Span) (name : String) (args : List Expr) (userDefined : Bool) :
    (call span name args userDefined).commas = commasOfAll args := by
  simp [commas, parts, ownCommas, commasOfAll, sum_ownCommas_partsOfAll, Nat.add_comm]

theorem commas_builtin (span : Span) (function : Builtin) (args : List Expr) :
    (builtin span function args).commas = commasOfAll args := by
  simp [commas, parts, ownCommas, commasOfAll, sum_ownCommas_partsOfAll, Nat.add_comm]

theorem commas_unary (span : Span) (op : UnaryOp) (operand : Expr) :
    (unary span op operand).commas = operand.commas := by
  simp [commas, parts, ownCommas]

theorem commas_binary (span : Span) (op : BinaryOp) (left right : Expr) :
    (binary span op left right).commas = left.commas + right.commas := by
  simp [commas, parts, ownCommas]

theorem commas_group (span : Span) (inner : Expr) :
    (group span inner).commas = inner.commas := by
  simp [commas, parts, ownCommas]

theorem commasOfAll_cons_cons (e e' : Expr) (args : List Expr) :
    commasOfAll (e :: e' :: args) = e.commas + 1 + commasOfAll (e' :: args) := by
  simp only [commasOfAll, List.map_cons, List.sum_cons, List.length_cons]
  omega

end Expr

namespace Token

/-- The commas in the token's text. -/
def commas (token : Token) : Nat :=
  token.text.toList.count ','

/-- The commas in the token's text are those that its kind lets it have. -/
structure Separates (token : Token) : Prop where
  comma : token.kind = .comma → token.commas = 1
  string : token.kind = .string →
    token.commas = (literalContents token.text).toList.count ','
  other : token.kind ≠ .comma → token.kind ≠ .string → token.kind ≠ .unclosedString →
    token.commas = 0

/-- The commas in the texts of the tokens. -/
def commasOfAll (tokens : List Token) : Nat :=
  (tokens.map commas).sum

theorem commasOfAll_nil : commasOfAll [] = 0 :=
  rfl

theorem commasOfAll_cons (token : Token) (tokens : List Token) :
    commasOfAll (token :: tokens) = token.commas + commasOfAll tokens := by
  rw [commasOfAll, List.map_cons, List.sum_cons, commasOfAll]

theorem commasOfAll_append (tokens tokens' : List Token) :
    commasOfAll (tokens ++ tokens') = commasOfAll tokens + commasOfAll tokens' := by
  rw [commasOfAll, List.map_append, List.sum_append, commasOfAll, commasOfAll]

/-- A token of a kind without commas counts for nothing. -/
theorem Separates.skip {token : Token} (h : token.Separates) {kind : TokenKind}
    (hkind : token.kind = kind)
    (hother : kind ≠ .comma ∧ kind ≠ .string ∧ kind ≠ .unclosedString) (tokens : List Token) :
    commasOfAll (token :: tokens) = commasOfAll tokens := by
  obtain rfl := hkind
  rw [commasOfAll_cons, h.other hother.1 hother.2.1 hother.2.2, Nat.zero_add]

end Token

/-- A closed string has the commas of its contents before its last quote. -/
theorem exists_contents_of_stringTail {text tail : List Char}
    (h : stringTail text = (tail, true)) :
    ∃ contents, tail = contents ++ ['"'] ∧ contents.count ',' = (unescape contents).count ',' := by
  fun_induction stringTail text generalizing tail with
  | case1 | case3 | case4 => cases h
  | case2 c rest hquote =>
      cases h
      exact ⟨[], by simpa using hquote, rfl⟩
  | case5 c hquote hslash d rest hfeed tail' closed hrest ih =>
      cases h
      obtain ⟨contents, rfl, hcount⟩ := ih hrest
      refine ⟨c :: d :: contents, rfl, ?_⟩
      have hc : c ≠ ',' := by
        rintro rfl
        cases hslash
      rw [unescape, if_pos hslash, List.count_cons_of_ne hc, List.count_cons, hcount,
        List.count_cons]
  | case6 c rest hquote hslash tail' closed hrest ih =>
      cases h
      obtain ⟨contents, rfl, hcount⟩ := ih hrest
      refine ⟨c :: contents, rfl, ?_⟩
      rw [unescape.eq_def, List.count_cons, hcount]
      dsimp only
      rw [if_neg hslash, List.count_cons]

theorem comma_notMem_numberTail (text : List Char) : ',' ∉ numberTail text := by
  have notMem {digits : List Char} (hdigits : ∀ d ∈ digits, isAsciiDigit d = true) :
      ',' ∉ digits := by
    intro hmem
    cases hdigits _ hmem
  have hdigits : ',' ∉ text.takeWhile isAsciiDigit :=
    notMem (List.all_eq_true.mp List.all_takeWhile)
  rcases numberTail_cases text with hplain | ⟨fraction, _, hfraction, hdotted⟩
  · rw [hplain]
    exact hdigits
  · rw [hdotted, List.mem_append, List.mem_cons]
    rintro (hmem | hmem | hmem)
    · exact hdigits hmem
    · cases hmem
    · exact notMem hfraction hmem

namespace Token

theorem separates_of_notMem {kind : TokenKind} {text : List Char}
    (hkind : kind ≠ .comma ∧ kind ≠ .string) (hmem : ',' ∉ text) (span : Span) :
    Separates ⟨kind, span, String.ofList text⟩ := by
  refine ⟨fun h => absurd h hkind.1, fun h => absurd h hkind.2, fun _ _ _ => ?_⟩
  rw [commas, String.toList_ofList]
  exact List.count_eq_zero.mpr hmem

theorem separates_of_stringTail {rest tail : List Char} {closed : Bool}
    (h : stringTail rest = (tail, closed)) (span : Span) :
    Separates ⟨if closed then .string else .unclosedString, span, String.ofList ('"' :: tail)⟩ := by
  cases closed with
  | false => exact ⟨by simp, by simp, by simp⟩
  | true =>
      refine ⟨by simp, fun _ => ?_, by simp⟩
      obtain ⟨contents, rfl, hcount⟩ := exists_contents_of_stringTail h
      rw [commas, literalContents, String.toList_ofList, String.toList_ofList, List.tail_cons,
        List.dropLast_concat, ← hcount]
      simp

theorem separates_of_mem_operatorWords {entry : String × TokenKind} (h : entry ∈ operatorWords)
    (span : Span) : Separates ⟨entry.2, span, String.ofList entry.1.toList⟩ := by
  have hoperators : ∀ entry ∈ operatorWords,
      entry.2 ≠ .string ∧ entry.1.toList.count ',' = if entry.2 = .comma then 1 else 0 := by
    decide
  obtain ⟨hstring, hcount⟩ := hoperators entry h
  have hcommas : commas ⟨entry.2, span, String.ofList entry.1.toList⟩ =
      if entry.2 = .comma then 1 else 0 := by
    rw [commas, String.toList_ofList, hcount]
  exact ⟨fun hkind => by rw [hcommas, if_pos hkind], fun hkind => absurd hkind hstring,
    fun hkind _ _ => by rw [hcommas, if_neg hkind]⟩

end Token

/-- A token has the commas that its kind lets it have. -/
theorem separates_of_tokenTail? {c : Char} {rest tail : List Char} {kind : TokenKind}
    (h : tokenTail? c rest = some (kind, tail)) (span : Span) :
    Token.Separates ⟨kind, span, String.ofList (c :: tail)⟩ := by
  have htoken := h
  rw [tokenTail?] at h
  split at h
  · rename_i hstart
    refine Token.separates_of_notMem ?_ (fun hmem => ?_) span
    · split at h
      · cases h
        decide
      · dsimp only at h
        obtain ⟨rfl, _⟩ := Prod.mk.inj (Option.some.inj h)
        have hword : ∀ kind ∈ [TokenKind.trueWord, .falseWord, .and, .or, .not, .name],
            kind ≠ .comma ∧ kind ≠ .string := by decide
        exact hword _ (wordKind_mem _)
    · have hchar := isWordChar_of_tokenTail? htoken hstart _ hmem
      revert hchar
      decide
  · split at h
    · rename_i hdigit
      cases h
      refine Token.separates_of_notMem (by decide) ?_ span
      rw [List.mem_cons, not_or]
      refine ⟨?_, comma_notMem_numberTail rest⟩
      rintro rfl
      cases hdigit
    · split at h
      · rename_i hquote
        obtain rfl := eq_of_beq hquote
        cases h
        exact Token.separates_of_stringTail rfl span
      · obtain ⟨entry, hfind, heq⟩ := Option.map_eq_some_iff.mp h
        cases heq
        obtain ⟨hmem, hword, -⟩ := eq_cons_of_find?_operatorWords hfind
        rw [← hword]
        exact Token.separates_of_mem_operatorWords hmem span

theorem separates_of_mem_lexFrom {offset : Nat} {text : List Char} {tokens : List Token}
    (h : lexFrom offset text = .ok tokens) : ∀ token ∈ tokens, token.Separates := by
  intro token htoken
  obtain ⟨kind, span, word⟩ := token
  obtain ⟨c, rest, tail, htail, rfl⟩ := exists_tokenTail?_of_mem_lexFrom h _ htoken
  exact separates_of_tokenTail? htail span

/-- The commas of a text are those of its tokens. -/
theorem Written.count_comma {tokens : List Token} {text : List Char} (h : Written tokens text) :
    text.count ',' = Token.commasOfAll tokens := by
  induction h with
  | nil => rfl
  | @gap c tokens text hgap _ ih =>
      have hc : c ≠ ',' := by
        rintro rfl
        cases hgap
      rw [List.count_cons_of_ne hc, ih]
  | token token _ ih => rw [List.count_append, ih, Token.commasOfAll_cons, Token.commas]

/-- The tokens of the phrase bring so many commas: those of the tree that it stands for, but for
the commas of the tree that it goes on with. -/
def Phrase.Brings : Phrase → Nat → Prop
  | .expr _ e, n => e.commas = n
  | .operators _ left e, n => e.commas = left.commas + n
  | .positions base e, n => e.commas = base.commas + n
  | .arguments args _, n => Expr.commasOfAll args = n
  | .items args, n => args ≠ [] ∧ Expr.commasOfAll args = n

/-- Operators between operands are written without commas. -/
theorem ne_comma_of_operator? {level : Precedence} {kind : TokenKind} {op : BinaryOp}
    (h : level.operator? kind = some op) :
    kind ≠ .comma ∧ kind ≠ .string ∧ kind ≠ .unclosedString := by
  refine ⟨?_, ?_, ?_⟩ <;>
    · rintro rfl
      cases level <;> cases h

/-- The commas of the tokens are those of the tree. -/
theorem Derives.brings {phrase : Phrase} {ws : List Token} (h : Derives phrase ws)
    (htokens : ∀ token ∈ ws, token.Separates) : phrase.Brings (Token.commasOfAll ws) := by
  -- Every rule joins the tokens of its parts, so the commas add up. Only the rule for one more item
  -- has a comma of its own, and it is the one that makes the list longer.
  induction h with
  | chain _ _ _ ihfirst ihrest =>
      rw [List.forall_mem_append] at htokens
      have hfirst := ihfirst htokens.1
      have hrest := ihrest htokens.2
      simp only [Phrase.Brings] at hfirst hrest ⊢
      rw [Token.commasOfAll_append, hrest, hfirst]
  | noOperator | noPosition => rfl
  | operator _ htoken _ _ ihright ihrest =>
      rw [List.forall_mem_cons, List.forall_mem_append] at htokens
      have hright := ihright htokens.2.1
      have hrest := ihrest htokens.2.2
      simp only [Phrase.Brings] at hright hrest ⊢
      rw [htokens.1.skip rfl (ne_comma_of_operator? htoken), Token.commasOfAll_append, hrest,
        Expr.commas_binary, hright, Nat.add_assoc]
  | negate htoken _ ih | not htoken _ ih =>
      rw [List.forall_mem_cons] at htokens
      have hoperand := ih htokens.2
      simp only [Phrase.Brings] at hoperand ⊢
      rw [htokens.1.skip htoken (by decide), Expr.commas_unary, hoperand]
  | unsigned _ ih | unraised _ ih => exact ih htokens
  | raised _ htoken _ ihbase ihexponent =>
      rw [List.forall_mem_append, List.forall_mem_cons] at htokens
      have hbase := ihbase htokens.1
      have hexponent := ihexponent htokens.2.2
      simp only [Phrase.Brings] at hbase hexponent ⊢
      rw [Token.commasOfAll_append, htokens.2.1.skip htoken (by decide), Expr.commas_binary,
        hbase, hexponent]
  | number htoken | trueWord htoken | falseWord htoken =>
      rw [List.forall_mem_singleton] at htokens
      rw [Phrase.Brings, htokens.skip htoken (by decide)]
      rfl
  | string htoken =>
      rw [List.forall_mem_singleton] at htokens
      rw [Phrase.Brings, Token.commasOfAll_cons, htokens.string htoken]
      rfl
  | group hopening _ hclosing ih =>
      rw [List.forall_mem_cons, List.forall_mem_append, List.forall_mem_singleton] at htokens
      have hinner := ih htokens.2.1
      simp only [Phrase.Brings] at hinner ⊢
      rw [htokens.1.skip hopening (by decide), Token.commasOfAll_append,
        htokens.2.2.skip hclosing (by decide), Expr.commas_group, hinner, Token.commasOfAll_nil,
        Nat.add_zero]
  | userCall hmarker hname _ ih =>
      rw [List.forall_mem_cons, List.forall_mem_cons] at htokens
      have hargs := ih htokens.2.2
      simp only [Phrase.Brings] at hargs ⊢
      rw [htokens.1.skip hmarker (by decide), htokens.2.1.skip hname (by decide),
        Expr.commas_call, hargs]
  | name htoken _ ih =>
      rw [List.forall_mem_cons] at htokens
      have hrest := ih htokens.2
      simp only [Phrase.Brings] at hrest ⊢
      rw [htokens.1.skip htoken (by decide), hrest]
      exact Nat.zero_add _
  | call htoken _ _ _ ihargs ihrest | builtin htoken _ _ _ _ ihargs ihrest =>
      rw [List.forall_mem_cons, List.forall_mem_append] at htokens
      have hargs := ihargs htokens.2.1
      have hrest := ihrest htokens.2.2
      simp only [Phrase.Brings, Expr.commas_call, Expr.commas_builtin] at hargs hrest ⊢
      rw [htokens.1.skip htoken (by decide), Token.commasOfAll_append, hrest, hargs]
  | position hopening _ hclosing _ ihindex ihrest =>
      rw [List.forall_mem_cons, List.forall_mem_append, List.forall_mem_cons] at htokens
      have hindex := ihindex htokens.2.1
      have hrest := ihrest htokens.2.2.2
      simp only [Phrase.Brings] at hindex hrest ⊢
      rw [htokens.1.skip hopening (by decide), Token.commasOfAll_append,
        htokens.2.2.1.skip hclosing (by decide), hrest, Expr.commas_index, hindex, Nat.add_assoc]
  | noArgument hopening hclosing =>
      rw [List.forall_mem_cons, List.forall_mem_singleton] at htokens
      rw [Phrase.Brings, htokens.1.skip hopening (by decide),
        htokens.2.skip hclosing (by decide)]
      rfl
  | arguments hopening _ hclosing ih =>
      rw [List.forall_mem_cons, List.forall_mem_append, List.forall_mem_singleton] at htokens
      have hargs := (ih htokens.2.1).2
      rw [Phrase.Brings, htokens.1.skip hopening (by decide), Token.commasOfAll_append,
        htokens.2.2.skip hclosing (by decide), hargs, Token.commasOfAll_nil, Nat.add_zero]
  | lastItem _ ih =>
      have he := ih htokens
      rw [Phrase.Brings] at he
      refine ⟨by simp, ?_⟩
      rw [Expr.commasOfAll, List.map_singleton, List.sum_singleton, he]
      rfl
  | @nextItem e comma args ws vs _ hcomma _ ihe ihrest =>
      rw [List.forall_mem_append, List.forall_mem_cons] at htokens
      have he := ihe htokens.1
      obtain ⟨hne, hrest⟩ := ihrest htokens.2.2
      rw [Phrase.Brings] at he
      refine ⟨by simp, ?_⟩
      obtain ⟨e', args, rfl⟩ := List.exists_cons_of_ne_nil hne
      rw [Expr.commasOfAll_cons_cons, he, hrest, Token.commasOfAll_append, Token.commasOfAll_cons,
        htokens.2.1.comma hcomma, Nat.add_assoc]

/-- The marker is taken out of the text where it is split. -/
theorem eq_append_of_splitAtMarkerFrom? {place : Quotation} {text front behind : List Char}
    (h : splitAtMarkerFrom? place text = some (front, behind)) :
    text = front ++ negationMarker ++ behind := by
  induction text generalizing place front behind with
  | nil => cases h
  | cons c rest ih =>
      simp only [splitAtMarkerFrom?] at h
      split at h
      · next found =>
        cases h
        exact afterWord?_eq_some_iff.mp found
      · obtain ⟨⟨front', behind'⟩, hsplit, heq⟩ := Option.map_eq_some_iff.mp h
        cases heq
        rw [ih hsplit]
        rfl

/-- Only white space is lost where a negation moves, and the operator is new. -/
theorem count_comma_negateLast? {front negated : List Char} (h : negateLast? front = some negated) :
    negated.count ',' = front.count ',' := by
  obtain ⟨n, -, rfl⟩ := Option.map_eq_some_iff.mp h
  have hblank : ',' ∉ front.reverse.takeWhile isBlank := fun hmem =>
    absurd (List.all_eq_true.mp List.all_takeWhile _ hmem) (by decide)
  have hsplit := congrArg (List.count ',')
    (List.takeWhile_append_dropWhile (p := isBlank) (l := front.reverse))
  have hoperand := congrArg (List.count ',')
    (List.take_append_drop n (front.reverse.dropWhile isBlank))
  rw [List.count_append, List.count_eq_zero.mpr hblank, Nat.zero_add, List.count_reverse] at hsplit
  rw [List.count_append] at hoperand
  rw [List.count_append, List.count_cons_of_ne (by decide), List.count_reverse,
    List.count_reverse, ← hsplit, ← hoperand, Nat.add_comm]

/-- Moving negations keeps every comma, and it leaves white space alone only where there was
nothing else. -/
theorem rewriteNegation_keeps {text rewritten : List Char}
    (h : rewriteNegation text = .ok rewritten) :
    rewritten.count ',' = text.count ',' ∧
      ((∀ c ∈ rewritten, isBlank c = true) ↔ ∀ c ∈ text, isBlank c = true) := by
  fun_induction rewriteNegation text with
  | case1 text _ =>
      cases h
      exact ⟨rfl, Iff.rfl⟩
  | case2 => cases h
  | case3 text front behind hsplit negated hnegated ih =>
      obtain ⟨hcount, hblank⟩ := ih h
      have htext := eq_append_of_splitAtMarkerFrom? hsplit
      have hmark : (∀ c ∈ negated ++ behind, isBlank c = true) → False := by
        obtain ⟨n, -, rfl⟩ := Option.map_eq_some_iff.mp hnegated
        intro hall
        exact absurd (hall '!' (by simp)) (by decide)
      have hmarker : (∀ c ∈ text, isBlank c = true) → False := by
        intro hall
        exact absurd (hall 'で' (by rw [htext]; simp [negationMarker])) (by decide)
      refine ⟨?_, fun hall => absurd (hblank.mp hall) hmark, fun hall => absurd hall hmarker⟩
      rw [hcount, htext, List.count_append, List.count_append, List.count_append,
        count_comma_negateLast? hnegated, show negationMarker.count ',' = 0 by decide,
        Nat.add_zero]

/-- A list slot is counted as long as it reads, but for the commas that its items are written
with themselves. -/
theorem listLength_of_prepareList {slot : String} {items : List Expr}
    (h : prepareList slot = .ok items) :
    listLength slot = items.length + (items.map Expr.commas).sum := by
  obtain ⟨text, hchecked, hparse, -⟩ := prepareList_eq_ok_iff.mp h
  have hnormal := (checkedText_eq_ok_iff.mp hchecked).1
  obtain ⟨hcount, hblank⟩ := rewriteNegation_keeps (normalizeText_eq_ok_iff.mp hnormal)
  obtain ⟨tokens, hlex, ⟨rfl, rfl⟩ | ⟨hne, hderives⟩⟩ := exists_tokens_of_parseExprList hparse
  · have hgaps : ∀ c ∈ text.toList, isBlank c = true := fun c hc =>
      isBlank_of_isTokenGap ((written_of_lexFrom hlex).gaps c hc)
    rw [listLength, if_pos (isEmpty_trimChars_iff.mpr (hblank.mp hgaps))]
    rfl
  · have hsome : ¬ ∀ c ∈ foldGlyphs slot.toList, isBlank c = true := by
      intro hall
      obtain ⟨token, htoken⟩ := List.exists_mem_of_ne_nil tokens hne
      obtain ⟨c, rest, tail, htail, htext⟩ := exists_tokenTail?_of_mem_lexFrom hlex token htoken
      have hmem := (written_of_lexFrom hlex).mem_of_mem htoken (c := c)
        (by rw [htext, String.toList_ofList]; exact .head _)
      exact Bool.eq_false_iff.mp (isBlank_of_tokenTail? htail) (hblank.mpr hall c hmem)
    obtain ⟨hitems, hcommas⟩ := hderives.brings (separates_of_mem_lexFrom hlex)
    have hlength : 0 < items.length := List.length_pos_iff.mpr hitems
    rw [listLength, if_neg (mt isEmpty_trimChars_iff.mp hsome), length_piecesAt, ← hcount,
      (written_of_lexFrom hlex).count_comma, ← hcommas, Expr.commasOfAll]
    omega

/-- Where no item is written with a comma, the count is right. -/
theorem listLength_eq_length {slot : String} {items : List Expr}
    (h : prepareList slot = .ok items) (hcommas : ∀ e ∈ items, e.commas = 0) :
    listLength slot = items.length := by
  have hsum : (items.map Expr.commas).sum = 0 :=
    List.sum_eq_zero_iff_forall_eq_nat.mpr (List.forall_mem_map.mpr hcommas)
  rw [listLength_of_prepareList h, hsum, Nat.add_zero]

end BlockCode
