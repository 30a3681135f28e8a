/- # Reading printed expressions back

Three of the targets spell operators and literals so that the reader of expressions takes them
again. What is printed for them is read back as an expression with the same meaning, and printing
that expression once more gives the same text: the printer puts parentheses where the reader
needs them and nowhere else does the text bind differently.
-/

import Mathlib.Data.List.Forall2
import BlockCode.Proofs.Expr.Meaning
import BlockCode.Proofs.Target.Fitting
import BlockCode.Proofs.Target.Spelled

namespace BlockCode

namespace Precedence

theorem above_le {level tighter : Precedence} (h : level < tighter)
    (hlevel : level.operands? = some level.above) : level.above ≤ tighter := by
  revert h hlevel
  cases level <;> cases tighter <;> decide

end Precedence

/-- No rule gives an expression of the lowest level. -/
theorem Derives.or_le {level : Precedence} {e : Expr} {ws : List Token}
    (h : Derives (.expr level e) ws) : .or ≤ level := by
  have hor : ∀ level operand : Precedence, level.operands? = some operand → .or ≤ level := by
    intro level operand
    cases level <;> cases operand <;> decide
  cases h with
  | chain hlevel _ _ => exact hor _ _ hlevel
  | _ => decide

/-- One more position at the end takes everything before it as its base. -/
theorem Derives.positions_snoc {base mid index : Expr} {opening closing : Token}
    {ws vs : List Token} (h : Derives (.positions base mid) ws)
    (hopening : opening.kind = .leftBracket) (hindex : Derives (.expr .or index) vs)
    (hclosing : closing.kind = .rightBracket) :
    Derives (.positions base (.index ⟨mid.span.start, closing.span.stop⟩ mid index))
      (ws ++ opening :: (vs ++ [closing])) := by
  generalize hphrase : Phrase.positions base mid = phrase at h
  induction h generalizing base with
  | noPosition =>
      cases hphrase
      exact .position hopening hindex hclosing .noPosition
  | position hopening' hindex' hclosing' _ _ ih =>
      cases hphrase
      simpa using Derives.position hopening' hindex' hclosing' (ih rfl)
  | _ => cases hphrase

/-- An expression that takes positions goes on with one. -/
theorem Derives.index_snoc {base index : Expr} {opening closing : Token} {ws vs : List Token}
    (h : Derives (.expr .primary base) ws) (hbase : base.TakesPositions)
    (hopening : opening.kind = .leftBracket) (hindex : Derives (.expr .or index) vs)
    (hclosing : closing.kind = .rightBracket) :
    Derives (.expr .primary (.index ⟨base.span.start, closing.span.stop⟩ base index))
      (ws ++ opening :: (vs ++ [closing])) := by
  cases h with
  | name htoken hrest => exact .name htoken (hrest.positions_snoc hopening hindex hclosing)
  | call htoken hplain hargs hrest =>
      rw [List.cons_append, List.append_assoc]
      exact .call htoken hplain hargs (hrest.positions_snoc hopening hindex hclosing)
  | builtin htoken hbuiltin hargs hadmits hrest =>
      rw [List.cons_append, List.append_assoc]
      exact .builtin htoken hbuiltin hargs hadmits (hrest.positions_snoc hopening hindex hclosing)
  | chain hlevel _ _ => cases hlevel
  | number | string | trueWord | falseWord | group => exact hbase.elim
  | userCall => cases hbase

/-- The reader groups operands that fit around an operator as the operator does. -/
theorem Derives.binary {op : BinaryOp} {left right : Expr} {leftLevel rightLevel : Precedence}
    {token : Token} {ws vs : List Token} (htoken : token.kind.binaryOp? = some op)
    (hleft : Derives (.expr leftLevel left) ws) (hleftFits : op.fitsLeft leftLevel = true)
    (hright : Derives (.expr rightLevel right) vs) (hrightFits : op.fitsRight rightLevel = true) :
    Derives (.expr op.precedence (.binary (left.span.merge right.span) op left right))
      (ws ++ token :: vs) := by
  have hlowest : op.precedence ≠ .lowest := by cases op <;> decide
  rcases operator_of_binaryOp? htoken with ⟨hkind, rfl⟩ | ⟨hlevel, hoperator, _⟩
  · have hprimary : leftLevel = .primary := by
      revert hleftFits
      cases leftLevel <;> decide
    have hunary : .unary ≤ rightLevel := by
      revert hrightFits
      cases rightLevel <;> decide
    exact .raised (hprimary ▸ hleft) hkind (hright.of_le hunary (by decide))
  · have hpower : op ≠ .power := by
      rintro rfl
      cases hlevel
    apply chain_snoc _ hlevel hoperator
    · exact hright.of_le (Precedence.above_le (BinaryOp.lt_of_fitsRight hrightFits hpower) hlevel)
        (Precedence.above_ne_lowest _)
    · exact hleft.of_le (BinaryOp.le_of_fitsLeft hleftFits) hlowest

namespace ExprPrinter

variable {p : ExprPrinter}

/-- At the offset, the printed text is read as the tokens, which spell a tree that means the same
and comes out as the same text. -/
structure IsReadAs (p : ExprPrinter) (x : Printed) (meaning : Expr) (offset : Nat)
    (tokens : List Token) (e : Expr) : Prop where
  lexes : ∀ rest, Breaks rest → LexesBefore rest offset x.text.toList tokens
  derives : Derives (.expr x.precedence e) tokens
  bare_eq : e.bare = meaning.bare
  print_eq : p.print e = x
  takesPositions : meaning.TakesPositions → e.TakesPositions

/-- Wherever it stands, the printed text is read back as an expression that means the same. -/
structure Conveys (p : ExprPrinter) (x : Printed) (meaning : Expr) : Prop where
  head_ne : ∀ c ∈ x.text.toList.head?, c ≠ '='
  exists_read : ∀ offset, ∃ tokens e, p.IsReadAs x meaning offset tokens e

theorem forall_mem_head?_append {P : Char → Prop} {text text' : List Char}
    (h : ∀ c ∈ text.head?, P c) (h' : ∀ c ∈ text'.head?, P c) :
    ∀ c ∈ (text ++ text').head?, P c := by
  cases text with
  | nil => exact h'
  | cons c text => exact h

namespace Conveys

variable {x left right : Printed} {meaning meaning' leftMeaning rightMeaning : Expr}

theorem of_bare_eq (h : p.Conveys x meaning) (heq : meaning.bare = meaning'.bare)
    (htakes : meaning'.TakesPositions → meaning.TakesPositions) : p.Conveys x meaning' := by
  refine ⟨h.head_ne, fun offset => ?_⟩
  obtain ⟨tokens, e, hread⟩ := h.exists_read offset
  exact ⟨tokens, e, hread.lexes, hread.derives, hread.bare_eq.trans heq, hread.print_eq,
    fun htaken => hread.takesPositions (htakes htaken)⟩

/-- A text of one token. -/
theorem single {text : String} {kind : TokenKind} (htext : IsLexeme kind text)
    (hkind : kind ≠ .equal) (e : Token → Expr)
    (hderives : ∀ token : Token, token.kind = kind → Derives (.expr .primary (e token)) [token])
    (hbare : ∀ token : Token, token.text = text → (e token).bare = meaning.bare)
    (hprint : ∀ token : Token, token.text = text → p.print (e token) = .primary text)
    (htakes : ∀ token, meaning.TakesPositions → (e token).TakesPositions) :
    p.Conveys (.primary text) meaning := by
  refine ⟨htext.head_ne hkind, fun offset => ?_⟩
  exact ⟨[.spelled kind offset text.toList], e (.spelled kind offset text.toList),
    fun rest hrest => htext.lexesBefore hrest offset, hderives _ rfl,
    hbare _ String.ofList_toList, hprint _ String.ofList_toList, htakes _⟩

theorem number {text : String} (htext : IsLexeme .number text) (span : Span) :
    p.Conveys (.primary text) (.number span text) :=
  single htext (by decide) (fun token => .number token.span token.text) (fun _ => .number)
    (fun _ heq => by rw [heq]; rfl) (fun _ heq => by rw [heq]; rfl) (fun _ => id)

theorem string (hp : p.dialect.IsReadBack) (contents : String) (span : Span) :
    p.Conveys (.primary (p.dialect.stringLiteral contents)) (.string span contents) := by
  apply single (isLexeme_stringLiteral hp.quotedChar contents) (by decide)
    (fun token => .string token.span (literalContents token.text)) (fun _ => .string)
  · intro token heq
    rw [heq, literalContents_stringLiteral hp.quotedChar]
    rfl
  · intro token heq
    rw [heq, literalContents_stringLiteral hp.quotedChar]
    rfl
  · exact fun _ => id

theorem bool (hp : p.dialect.IsReadBack) (value : Bool) (span : Span) :
    p.Conveys (.primary (if value then p.dialect.trueWord else p.dialect.falseWord))
      (.bool span value) := by
  cases value with
  | true =>
      exact single hp.trueWord (by decide) (fun token => .bool token.span true)
        (fun _ => .trueWord) (fun _ _ => rfl) (fun _ _ => rfl) (fun _ => id)
  | false =>
      exact single hp.falseWord (by decide) (fun token => .bool token.span false)
        (fun _ => .falseWord) (fun _ _ => rfl) (fun _ _ => rfl) (fun _ => id)

theorem name (hspellings : p.spellings? = none) {word : String} (hword : IsLexeme .name word)
    (span : Span) : p.Conveys (.primary word) (.name span word) := by
  have hname : p.name word = word := by
    rw [ExprPrinter.name_eq_self _ hspellings]
  apply single hword (by decide) (fun token => .name token.span token.text)
    (fun _ hkind => .name hkind .noPosition)
  · intro token heq
    rw [heq]
    rfl
  · intro token heq
    rw [print, heq, hname]
  · exact fun _ => id

/-- Parentheses make a group, which means what stands in them. -/
theorem group (h : p.Conveys x meaning) (span : Span) :
    p.Conveys (.primary x.parenthesized) (.group span meaning) := by
  have htext : (Printed.primary x.parenthesized).text.toList =
      '(' :: (x.text.toList ++ [')']) := by
    simp [Printed.primary, Printed.parenthesized]
  refine ⟨by simp [htext], fun offset => ?_⟩
  obtain ⟨tokens, e, hread⟩ := h.exists_read (offset + utf8Length ['('])
  refine ⟨_, _, ?_, .group (Token.kind_spelled .leftParen offset ['('])
    (hread.derives.of_le hread.derives.or_le (by decide))
    (Token.kind_spelled .rightParen (offset + utf8Length ['('] + utf8Length x.text.toList)
      [')']), ?_, ?_, id⟩
  · intro rest _
    rw [htext]
    exact .enclosed (fun _ => rfl) (fun _ => rfl) (hread.lexes _ (breaks_cons.mpr (by decide)))
  · rw [Expr.bare, Expr.bare, hread.bare_eq]
  · rw [print, hread.print_eq]

/-- A text keeps its meaning where it is put in parentheses to fit. -/
theorem exists_fitted (h : p.Conveys x meaning) (fits : Precedence → Bool) :
    ∃ fittedMeaning, p.Conveys (x.fitted fits) fittedMeaning ∧
      fittedMeaning.bare = meaning.bare := by
  rw [Printed.fitted]
  split
  · exact ⟨meaning, h, rfl⟩
  · exact ⟨.group default meaning, h.group default, rfl⟩

/-- An operation means the operation on what its operands mean. -/
theorem binary (hp : p.dialect.IsReadBack) {op : BinaryOp}
    (hop : op = .floorDivide → ∃ symbol, p.dialect.floorDivision = .operator symbol)
    (hleft : p.Conveys left leftMeaning) (hright : p.Conveys right rightMeaning) (span : Span) :
    p.Conveys (p.binary op left right) (.binary span op leftMeaning rightMeaning) := by
  obtain ⟨_, hleft', hleftBare⟩ := hleft.exists_fitted op.fitsLeft
  obtain ⟨_, hright', hrightBare⟩ := hright.exists_fitted op.fitsRight
  have hleftFits : op.fitsLeft (left.fitted op.fitsLeft).precedence = true :=
    Printed.fits_fitted op.fitsLeft_primary
  have hrightFits : op.fitsRight (right.fitted op.fitsRight).precedence = true :=
    Printed.fits_fitted op.fitsRight_primary
  -- Fitted operands are printed as they are, so the operation comes out the same again.
  have hagain : p.binary op (left.fitted op.fitsLeft) (right.fitted op.fitsRight) =
      p.binary op left right := by
    rw [binary_eq hop, binary_eq hop, Printed.fitted_eq hleftFits, Printed.fitted_eq hrightFits]
  obtain ⟨c, tail, kind, hsymbol, hkind, htail⟩ := hp.symbol op hop
  have htext : (p.binary op left right).text.toList = (left.fitted op.fitsLeft).text.toList ++
      ' ' :: (c :: (tail ++ ' ' :: (right.fitted op.fitsRight).text.toList)) := by
    rw [binary_eq hop]
    simp [hsymbol]
  refine ⟨?_, fun offset => ?_⟩
  · rw [htext]
    exact forall_mem_head?_append hleft'.head_ne (by simp)
  · obtain ⟨ws, l, hl⟩ := hleft'.exists_read offset
    obtain ⟨vs, r, hr⟩ := hright'.exists_read
      (offset + utf8Length (left.fitted op.fitsLeft).text.toList + ' '.utf8Size +
        utf8Length (c :: tail) + ' '.utf8Size)
    refine ⟨ws ++ .spelled kind (offset + utf8Length (left.fitted op.fitsLeft).text.toList +
      ' '.utf8Size) (c :: tail) :: vs, .binary (l.span.merge r.span) op l r, ?_, ?_, ?_, ?_, id⟩
    · intro rest hrest
      rw [htext]
      apply LexesBefore.append (hl.lexes _ (breaks_cons.mpr (by decide)))
      apply LexesBefore.gap rfl
      apply LexesBefore.cons (htail _)
      exact .gap rfl (hr.lexes rest hrest)
    · rw [binary_eq hop]
      exact .binary hkind hl.derives hleftFits hr.derives hrightFits
    · rw [Expr.bare, Expr.bare, hl.bare_eq, hr.bare_eq, hleftBare, hrightBare]
    · rw [print, hl.print_eq, hr.print_eq, hagain]

/-- An operator in front means the operator on what its operand means. -/
theorem unary (hp : p.dialect.IsReadBack) (op : UnaryOp) (h : p.Conveys x meaning) (span : Span) :
    p.Conveys (p.unary op x) (.unary span op meaning) := by
  obtain ⟨_, h', hbare⟩ := h.exists_fitted (p.fitsUnary op)
  have hfits : p.fitsUnary op (x.fitted (p.fitsUnary op)).precedence = true :=
    Printed.fits_fitted (fitsUnary_primary op)
  have hagain : p.unary op (x.fitted (p.fitsUnary op)) = p.unary op x := by
    rw [unary_eq, unary_eq, Printed.fitted_eq hfits]
  have htext : (p.unary op x).text.toList =
      (p.sign op).toList ++ (x.fitted (p.fitsUnary op)).text.toList := by
    rw [unary_eq, String.toList_append]
  refine ⟨?_, fun offset => ?_⟩
  · rw [htext]
    refine forall_mem_head?_append ?_ h'.head_ne
    cases op with
    | negate => simp [sign]
    | not => exact hp.not_head
  · obtain ⟨ws, e, he⟩ := h'.exists_read (offset + utf8Length (p.sign op).toList)
    have hunary := he.derives.of_le (unary_le_of_fitsUnary hfits) (by decide)
    obtain ⟨token, hkind, hlexes⟩ : ∃ token : Token,
        (token.kind = .minus ∧ op = .negate ∨ token.kind = .not ∧ op = .not) ∧
        ∀ rest, (∀ c ∈ rest.head?, c ≠ '=') →
          LexesBefore rest offset (p.sign op).toList [token] := by
      cases op with
      | negate =>
          refine ⟨.spelled .minus offset ['-'], .inl ⟨rfl, rfl⟩, fun rest _ => ?_⟩
          have hminus : LexesBefore rest offset ['-'] [.spelled .minus offset ['-']] :=
            .single rfl
          rw [sign]
          exact hminus
      | not =>
          obtain ⟨token, hkind, hlexes⟩ := hp.not offset
          exact ⟨token, .inr ⟨hkind, rfl⟩, hlexes⟩
    refine ⟨token :: ws, .unary (token.span.merge e.span) op e, ?_, ?_, ?_, ?_, id⟩
    · intro rest hrest
      rw [htext]
      exact .append (hlexes _ (forall_mem_head?_append h'.head_ne (hrest.head? (by decide))))
        (he.lexes rest hrest)
    · have hsigned : Derives (.expr .unary (.unary (token.span.merge e.span) op e))
          (token :: ws) := by
        rcases hkind with ⟨hkind, rfl⟩ | ⟨hkind, rfl⟩
        · exact .negate hkind hunary
        · exact .not hkind hunary
      rw [unary_eq]
      exact hsigned.of_le (unaryLevel_le op).1 (unaryLevel_le op).2
    · rw [Expr.bare, Expr.bare, he.bare_eq, hbare]
    · rw [print, he.print_eq, hagain]

/-- An element means the element of what its base means. -/
theorem index (hp : p.dialect.IsReadBack) (hbase : p.Conveys left leftMeaning)
    (hlevel : left.precedence = .primary) (htakes : leftMeaning.TakesPositions)
    (hposition : p.Conveys right rightMeaning) (span : Span) :
    p.Conveys (.primary (left.atom ++ p.dialect.openIndex ++ right.text ++ p.dialect.closeIndex))
      (.index span leftMeaning rightMeaning) := by
  have hatom : left.atom = left.text := by
    rw [Printed.atom, Printed.atLeast, hlevel]
    rfl
  have htext : (Printed.primary (left.atom ++ p.dialect.openIndex ++ right.text ++
      p.dialect.closeIndex)).text.toList =
        left.text.toList ++ '[' :: (right.text.toList ++ [']']) := by
    simp [Printed.primary, hatom, hp.openIndex, hp.closeIndex]
  refine ⟨?_, fun offset => ?_⟩
  · rw [htext]
    exact forall_mem_head?_append hbase.head_ne (by simp)
  · obtain ⟨ws, base, hb⟩ := hbase.exists_read offset
    obtain ⟨vs, position, hi⟩ :=
      hposition.exists_read (offset + utf8Length left.text.toList + utf8Length ['['])
    have hderives : Derives (.expr .primary base) ws := hlevel ▸ hb.derives
    refine ⟨_, _, ?_, hderives.index_snoc (hb.takesPositions htakes)
      (Token.kind_spelled .leftBracket (offset + utf8Length left.text.toList) ['['])
      (hi.derives.of_le hi.derives.or_le (by decide))
      (Token.kind_spelled .rightBracket (offset + utf8Length left.text.toList +
        utf8Length ['['] + utf8Length right.text.toList) [']']), ?_, ?_, id⟩
    · intro rest _
      rw [htext]
      apply LexesBefore.append (hb.lexes _ (breaks_cons.mpr (by decide)))
      exact .enclosed (fun _ => rfl) (fun _ => rfl) (hi.lexes _ (breaks_cons.mpr (by decide)))
    · rw [Expr.bare, Expr.bare, hb.bare_eq, hi.bare_eq]
    · rw [print, hb.print_eq, hi.print_eq]

/-- Expressions between commas are read back one by one. -/
theorem exists_items {xs : List Printed} {meanings : List Expr}
    (h : List.Forall₂ p.Conveys xs meanings) (hne : xs ≠ []) (offset : Nat) :
    ∃ tokens args, (∀ rest, Breaks rest →
        LexesBefore rest offset (commaList (xs.map Printed.text)).toList tokens) ∧
      Derives (.items args) tokens ∧ Expr.bareAll args = Expr.bareAll meanings ∧
      p.printAll args = xs := by
  induction h generalizing offset with
  | nil => exact absurd rfl hne
  | @cons x meaning xs meanings hx hxs ih =>
      obtain ⟨ws, e, he⟩ := hx.exists_read offset
      have hitem := he.derives.of_le he.derives.or_le (by decide)
      cases hxs with
      | nil =>
          refine ⟨ws, [e], ?_, .lastItem hitem, ?_, ?_⟩
          · intro rest hrest
            rw [List.map_singleton, commaList, String.intercalate_singleton]
            exact he.lexes rest hrest
          · rw [Expr.bareAll, Expr.bareAll, he.bare_eq]
            rfl
          · rw [printAll, he.print_eq]
            rfl
      | @cons next nextMeaning xs meanings hnext hxs =>
          obtain ⟨vs, args, hlexes, hderives, hbare, hprint⟩ := ih (List.cons_ne_nil _ _)
            (offset + utf8Length x.text.toList + utf8Length [','] + ' '.utf8Size)
          have htext : (commaList ((x :: next :: xs).map Printed.text)).toList =
              x.text.toList ++
                ',' :: ([] ++ ' ' :: (commaList ((next :: xs).map Printed.text)).toList) := by
            simp [commaList, String.intercalate_cons_cons]
          refine ⟨_, e :: args, ?_,
            .nextItem hitem
              (Token.kind_spelled .comma (offset + utf8Length x.text.toList) [',']) hderives,
            ?_, ?_⟩
          · intro rest hrest
            rw [htext]
            apply LexesBefore.append (he.lexes _ (breaks_cons.mpr (by decide)))
            apply LexesBefore.cons (c := ',') rfl
            exact .gap rfl (hlexes rest hrest)
          · rw [Expr.bareAll, he.bare_eq, hbare]
            rfl
          · rw [printAll, he.print_eq, hprint]

/-- The arguments of a call are read back with their parentheses. -/
theorem exists_arguments {xs : List Printed} {meanings : List Expr}
    (h : List.Forall₂ p.Conveys xs meanings) (offset : Nat) :
    ∃ tokens args stop, (∀ rest, LexesBefore rest offset
        ('(' :: ((commaList (xs.map Printed.text)).toList ++ [')'])) tokens) ∧
      Derives (.arguments args stop) tokens ∧ Expr.bareAll args = Expr.bareAll meanings ∧
      p.printAll args = xs := by
  cases h with
  | nil =>
      refine ⟨_, [], _, fun rest => ?_,
        .noArgument (Token.kind_spelled .leftParen offset ['('])
          (Token.kind_spelled .rightParen (offset + utf8Length ['('] + utf8Length []) [')']),
        rfl, rfl⟩
      exact .enclosed (fun _ => rfl) (fun _ => rfl) .nil
  | @cons x meaning xs meanings hx hxs =>
      obtain ⟨ws, args, hlexes, hderives, hbare, hprint⟩ :=
        exists_items (.cons hx hxs) (List.cons_ne_nil _ _) (offset + utf8Length ['('])
      refine ⟨_, args, _, fun rest => ?_,
        .arguments (Token.kind_spelled .leftParen offset ['(']) hderives
          (Token.kind_spelled .rightParen (offset + utf8Length ['('] +
            utf8Length (commaList ((x :: xs).map Printed.text)).toList) [')']),
        hbare, hprint⟩
      exact .enclosed (fun _ => rfl) (fun _ => rfl) (hlexes _ (breaks_cons.mpr (by decide)))

/-- A call means the call with what its arguments mean. -/
theorem call (hspellings : p.spellings? = none) {word : String} (hword : IsLexeme .name word)
    (hplain : Builtin.ofName? word = none) {xs : List Printed} {meanings : List Expr}
    (h : List.Forall₂ p.Conveys xs meanings) (span : Span) (userDefined : Bool) :
    p.Conveys (.primary (p.name word ++ "(" ++ commaList (xs.map Printed.text) ++ ")"))
      (.call span word meanings userDefined) := by
  have hname : p.name word = word := by
    rw [ExprPrinter.name_eq_self _ hspellings]
  have htext : (Printed.primary (p.name word ++ "(" ++ commaList (xs.map Printed.text) ++
      ")")).text.toList =
        word.toList ++ '(' :: ((commaList (xs.map Printed.text)).toList ++ [')']) := by
    simp [Printed.primary, hname]
  refine ⟨?_, fun offset => ?_⟩
  · rw [htext]
    exact forall_mem_head?_append (hword.head_ne (by decide)) (by simp)
  · obtain ⟨ws, args, stop, hlexes, hderives, hbare, hprint⟩ :=
      exists_arguments h (offset + utf8Length word.toList)
    have hspelled : (Token.spelled .name offset word.toList).text = word := String.ofList_toList
    refine ⟨_, _, ?_, .call (Token.kind_spelled .name offset word.toList)
      (by rw [hspelled]; exact hplain) hderives .noPosition, ?_, ?_, fun _ => rfl⟩
    · intro rest _
      rw [htext, List.append_nil]
      exact .append (hword.lexesBefore (breaks_cons.mpr (by decide)) offset) (hlexes rest)
    · rw [Expr.bare, Expr.bare, hspelled, hbare]
    · rw [print, hspelled, hprint]

/-- An operation on units in parentheses means the operation. -/
theorem boxed (hp : p.dialect.IsReadBack) (op : BinaryOp) (hop : op ≠ .floorDivide)
    (hleft : p.Conveys left leftMeaning) (hright : p.Conveys right rightMeaning) (span : Span) :
    p.Conveys
      (.primary ("(" ++ left.atom ++ " " ++ p.dialect.symbol op ++ " " ++ right.atom ++ ")"))
      (.binary span op leftMeaning rightMeaning) := by
  let unit : Precedence → Bool := fun level => Precedence.primary ≤ level
  have hunit (x : Printed) : (x.fitted unit).precedence = .primary ∧
      (x.fitted unit).text = x.atom := by
    refine ⟨?_, ?_⟩
    · have hfits : unit (x.fitted unit).precedence = true := Printed.fits_fitted rfl
      revert hfits
      cases (x.fitted unit).precedence <;> decide
    · rw [Printed.text_fitted, Printed.atom, Printed.atLeast]
      simp [unit]
  obtain ⟨leftUnit, hleft', hleftBare⟩ := hleft.exists_fitted unit
  obtain ⟨rightUnit, hright', hrightBare⟩ := hright.exists_fitted unit
  have hbinary : p.binary op (left.fitted unit) (right.fitted unit) =
      ⟨left.atom ++ " " ++ p.dialect.symbol op ++ " " ++ right.atom, op.precedence⟩ := by
    have hleftFits : (left.fitted unit).fitted op.fitsLeft = left.fitted unit :=
      Printed.fitted_eq (by rw [(hunit left).1]; exact op.fitsLeft_primary)
    have hrightFits : (right.fitted unit).fitted op.fitsRight = right.fitted unit :=
      Printed.fitted_eq (by rw [(hunit right).1]; exact op.fitsRight_primary)
    rw [binary_eq fun heq => absurd heq hop, hleftFits, hrightFits, (hunit left).2,
      (hunit right).2]
  have hgroup := (hleft'.binary hp (fun heq => absurd heq hop) hright' span).group span
  rw [hbinary] at hgroup
  have htext : (Printed.primary (Printed.parenthesized ⟨left.atom ++ " " ++ p.dialect.symbol op ++
      " " ++ right.atom, op.precedence⟩)) =
      .primary ("(" ++ left.atom ++ " " ++ p.dialect.symbol op ++ " " ++ right.atom ++ ")") := by
    simp [Printed.parenthesized, String.append_assoc]
  rw [htext] at hgroup
  refine hgroup.of_bare_eq ?_ False.elim
  rw [Expr.bare, Expr.bare, Expr.bare, hleftBare, hrightBare]

theorem isLexeme_digit {c : Char} (hc : isAsciiDigit c = true)
    (h : tokenTail? c [] = some (.number, [])) : IsLexeme .number (String.ofList [c]) :=
  ⟨c, [], String.toList_ofList, fun _ hrest => tokenTail?_append h (.inr hc) hrest.endsWord⟩

/-- A test for oddness means the test of the remainder. -/
theorem odd (hp : p.dialect.IsReadBack) (h : p.Conveys x meaning) (span : Span) :
    p.Conveys (p.builtin .odd [x]) (.binary span .notEqual
      (.binary span .modulo meaning (.number span "2")) (.number span "0")) := by
  have htwo : p.Conveys (.primary "2") (.number span "2") :=
    number (isLexeme_digit (c := '2') (by decide) (by decide)) span
  have hzero : p.Conveys (.primary "0") (.number span "0") :=
    number (isLexeme_digit (c := '0') (by decide) (by decide)) span
  have hmodulo : p.Conveys (p.binary .modulo x (.primary "2"))
      (.binary span .modulo meaning (.number span "2")) :=
    h.binary hp (by simp) htwo span
  have hodd : p.Conveys (p.binary .notEqual (p.binary .modulo x (.primary "2")) (.primary "0"))
      (.binary span .notEqual (.binary span .modulo meaning (.number span "2"))
        (.number span "0")) :=
    hmodulo.binary hp (by simp) hzero span
  have htext : p.binary .notEqual (p.binary .modulo x (.primary "2")) (.primary "0") =
      p.builtin .odd [x] := by
    have hx : (x.fitted BinaryOp.modulo.fitsLeft).text = x.atLeast .multiplicative := by
      rw [Printed.text_fitted, Printed.atLeast]
      exact if_congr decide_eq_true_iff rfl rfl
    have htwoFits : (Printed.primary "2").fitted BinaryOp.modulo.fitsRight = .primary "2" :=
      Printed.fitted_eq (by decide)
    have hzeroFits : (Printed.primary "0").fitted BinaryOp.notEqual.fitsRight = .primary "0" :=
      Printed.fitted_eq (by decide)
    have hmoduloFits (text : String) :
        (Printed.mk text BinaryOp.modulo.precedence).fitted BinaryOp.notEqual.fitsLeft =
          ⟨text, BinaryOp.modulo.precedence⟩ :=
      Printed.fitted_eq rfl
    rw [binary_eq (by simp), binary_eq (by simp), htwoFits, hzeroFits, hmoduloFits, hx, builtin,
      show " 2 " = " " ++ "2" ++ " " from rfl, show " 0" = " " ++ "0" from rfl]
    simp only [Dialect.symbol, Printed.primary, BinaryOp.precedence, String.append_assoc]
  rw [htext] at hodd
  exact hodd

end Conveys

/-- What a node has to satisfy so that its text in the dialect is read back. -/
def ReadsBack (d : Dialect) : Expr → Prop
  | .number _ text => IsLexeme .number text
  | .name _ word => IsLexeme .name word
  | .index _ base _ =>
    base.TakesPositions ∧ ∀ span function args, base ≠ .builtin span function args
  | .call _ word _ _ => IsLexeme .name word ∧ Builtin.ofName? word = none
  | .builtin _ function args =>
    function ≠ .random ∧ function ≠ .binary ∧ args.length = function.arity
  | .binary _ op _ _ => op = .floorDivide → ∃ symbol, d.floorDivision = .operator symbol
  | _ => True

theorem length_expandedAll (args : List Expr) :
    (Expr.expandedAll args).length = args.length := by
  induction args with
  | nil => rfl
  | cons e args ih => rw [Expr.expandedAll, List.length_cons, ih, List.length_cons]

/-- A call of a built-in that only abbreviates operators means these operators. -/
theorem conveys_builtin (hp : p.dialect.IsReadBack) {span : Span} {function : Builtin}
    {args : List Expr} (h : ReadsBack p.dialect (.builtin span function args))
    (hargs : List.Forall₂ p.Conveys (p.printAll args) (Expr.expandedAll args)) :
    p.Conveys (p.builtin function (p.printAll args))
      (Expr.expanded (.builtin span function args)) := by
  obtain ⟨hrandom, hbinary, hlength⟩ := h
  rw [← length_expandedAll] at hlength
  rw [Expr.expanded]
  revert hargs hlength
  generalize p.printAll args = xs
  generalize Expr.expandedAll args = meanings
  intro hargs hlength
  cases function with
  | random => exact absurd rfl hrandom
  | binary => exact absurd rfl hbinary
  | square =>
      obtain ⟨meaning, rfl⟩ := List.length_eq_one_iff.mp hlength
      cases hargs with
      | @cons x _ _ _ hx hrest =>
          cases hrest
          have htext : p.builtin .square [x] = .primary ("(" ++ x.atom ++ " " ++
              p.dialect.symbol .multiply ++ " " ++ x.atom ++ ")") := by
            rw [builtin, Dialect.symbol, show " * " = " " ++ "*" ++ " " from rfl]
            simp only [String.append_assoc]
          rw [htext]
          exact hx.boxed hp .multiply (by decide) hx span
  | odd =>
      obtain ⟨meaning, rfl⟩ := List.length_eq_one_iff.mp hlength
      cases hargs with
      | cons hx hrest =>
          cases hrest
          exact hx.odd hp span
  | exponentiation =>
      obtain ⟨base, exponent, rfl⟩ := List.length_eq_two.mp hlength
      cases hargs with
      | cons hbase hrest =>
          cases hrest with
          | cons hexponent hrest =>
              cases hrest
              exact hbase.boxed hp .power (by decide) hexponent span

mutual

/-- What is printed is read back as an expression that means the same. -/
theorem conveys_print (hp : p.dialect.IsReadBack) (hspellings : p.spellings? = none) :
    ∀ e : Expr, (∀ part ∈ e.parts, ReadsBack p.dialect part) → p.Conveys (p.print e) e.expanded
  | .number span text, h => .number (h _ (.head _)) span
  | .string span contents, _ => .string hp contents span
  | .bool span value, _ => .bool hp value span
  | .name span word, h => by
      rw [print, ExprPrinter.name_eq_self _ hspellings]
      exact .name hspellings (h _ (.head _)) span
  | .index span base position, h => by
      rw [Expr.parts, List.forall_mem_cons, List.forall_mem_append] at h
      obtain ⟨⟨htakes, hbuiltin⟩, hbase, hposition⟩ := h
      have hconveys := conveys_print hp hspellings base hbase
      rw [print, Expr.expanded]
      refine .index hp hconveys ?_ ?_ (conveys_print hp hspellings position hposition) span
      · cases base with
        | builtin => exact absurd rfl (hbuiltin _ _ _)
        | name | index | call => rfl
        | _ => exact htakes.elim
      · cases base with
        | builtin => exact absurd rfl (hbuiltin _ _ _)
        | name | index => trivial
        | call => exact htakes
        | _ => exact htakes.elim
  | .call span word args userDefined, h => by
      rw [Expr.parts, List.forall_mem_cons] at h
      obtain ⟨⟨hword, hplain⟩, hargs⟩ := h
      exact .call hspellings hword hplain (conveys_printAll hp hspellings args hargs) span
        userDefined
  | .builtin span function args, h => by
      rw [Expr.parts, List.forall_mem_cons] at h
      exact conveys_builtin hp h.1 (conveys_printAll hp hspellings args h.2)
  | .unary span op operand, h => by
      rw [Expr.parts, List.forall_mem_cons] at h
      exact (conveys_print hp hspellings operand h.2).unary hp op span
  | .binary span op left right, h => by
      rw [Expr.parts, List.forall_mem_cons, List.forall_mem_append] at h
      obtain ⟨hop, hleft, hright⟩ := h
      exact (conveys_print hp hspellings left hleft).binary hp hop
        (conveys_print hp hspellings right hright) span
  | .group span inner, h => by
      rw [Expr.parts, List.forall_mem_cons] at h
      exact (conveys_print hp hspellings inner h.2).group span

/-- What is printed for several expressions is read back one by one. -/
theorem conveys_printAll (hp : p.dialect.IsReadBack) (hspellings : p.spellings? = none) :
    ∀ args : List Expr, (∀ part ∈ Expr.partsOfAll args, ReadsBack p.dialect part) →
      List.Forall₂ p.Conveys (p.printAll args) (Expr.expandedAll args)
  | [], _ => .nil
  | e :: args, h => by
      rw [Expr.partsOfAll, List.forall_mem_append] at h
      exact .cons (conveys_print hp hspellings e h.1) (conveys_printAll hp hspellings args h.2)

end

end ExprPrinter

/-- The three targets whose expressions are read back. -/
theorem Target.isReadBack_dialect {target : Target} (h : target ≠ .vba) :
    target.dialect.IsReadBack := by
  cases target with
  | javaScript => exact Dialect.isReadBack_javaScript
  | python => exact Dialect.isReadBack_python
  | ruby => exact Dialect.isReadBack_ruby
  | vba => exact absurd rfl h

/-- A text whose printed form conveys a meaning parses to an expression with that meaning. -/
theorem ExprPrinter.Conveys.parseExpr {p : ExprPrinter} {x : Printed} {meaning : Expr}
    (h : p.Conveys x meaning) :
    ∃ e, BlockCode.parseExpr x.text = .ok e ∧ e.bare = meaning.bare ∧ p.print e = x := by
  obtain ⟨tokens, e, hread⟩ := h.exists_read 0
  have hlex : lex x.text = .ok tokens := (hread.lexes [] breaks_nil).lexFrom_eq_ok
  have hspells : Spells tokens e :=
    hread.derives.of_le hread.derives.or_le (by decide)
  refine ⟨e, ?_, hread.bare_eq, hread.print_eq⟩
  rw [BlockCode.parseExpr, lexExpr, hlex]
  exact parseTokens_eq_ok_iff.mpr (reads_parseAbove_lowest_iff_spells.mpr hspells)

/-- Printing an expression for JavaScript, Python or Ruby keeps its meaning. What is printed for
an expression that was read is read again: with the same tree up to places, groups and user
marks, once squares, exponentiations and tests for oddness are written out, and that tree is
printed as the same text. No reader takes the texts for random numbers, for binary digits and,
outside Python, for division that rounds down; an element of a built-in's result and a user's
function named like a built-in would be read as something else. -/
theorem Target.parseExpr_text_printer {target : Target} (htarget : target ≠ .vba) {text : String}
    {e : Expr} (hparse : parseExpr text = .ok e)
    (hrandom : e.callsBuiltin .random = false) (hbinary : e.callsBuiltin .binary = false)
    (hindexed : ∀ span base position, .index span base position ∈ e.parts →
      ∀ span' function args, base ≠ .builtin span' function args)
    (huser : ∀ span word args, .call span word args true ∈ e.parts →
      Builtin.ofName? word = none)
    (hfloor : target ≠ .python → ∀ span left right,
      .binary span .floorDivide left right ∉ e.parts) :
    ∃ e', parseExpr ((target.printer none).text e) = .ok e' ∧ e'.bare = e.expanded.bare ∧
      (target.printer none).text e' = (target.printer none).text e := by
  have hlegible := Expr.ownLegible_of_parseExpr hparse
  have hreads : ∀ part ∈ e.parts, ExprPrinter.ReadsBack target.dialect part := by
    intro part hpart
    have hown := hlegible part hpart
    cases part with
    | number | name => exact hown
    | index => exact ⟨hown, hindexed _ _ _ hpart⟩
    | call span word args userDefined =>
        refine ⟨hown.1, ?_⟩
        cases userDefined with
        | false => exact hown.2 rfl
        | true => exact huser _ _ _ hpart
    | builtin span function args =>
        refine ⟨?_, ?_, hown.1⟩
        · rintro rfl
          exact Bool.false_ne_true (hrandom.symm.trans (Expr.callsBuiltin_of_mem_parts hpart))
        · rintro rfl
          exact Bool.false_ne_true (hbinary.symm.trans (Expr.callsBuiltin_of_mem_parts hpart))
    | binary span op left right =>
        rintro rfl
        by_cases hpython : target = .python
        · rw [hpython]
          exact ⟨"//", rfl⟩
        · exact absurd hpart (hfloor hpython _ _ _)
    | string | bool | unary | group => trivial
  have hconveys := ExprPrinter.conveys_print (p := target.printer none)
    (Target.isReadBack_dialect htarget) rfl e hreads
  obtain ⟨e', hparse', hbare, hprint⟩ := hconveys.parseExpr
  exact ⟨e', hparse', hbare, congrArg Printed.text hprint⟩

/-- A negated test for oddness beside a division that rounds down. -/
def oddAndQuotient : Expr :=
  .binary ⟨0, 22⟩ .and
    (.unary ⟨0, 10⟩ .not (.builtin ⟨4, 10⟩ .odd [.name ⟨8, 9⟩ "x"]))
    (.binary ⟨15, 22⟩ .floorDivide (.unary ⟨15, 17⟩ .negate (.number ⟨16, 17⟩ "2"))
      (.name ⟨21, 22⟩ "y"))

/-- In Python the test is written out in parentheses, and the text is read back. -/
theorem Target.parseExpr_text_oddAndQuotient :
    parseExpr "not Odd(x) and -2 // y" = .ok oddAndQuotient ∧
      (Target.python.printer none).text oddAndQuotient = "not (x % 2 != 0) and -2 // y" ∧
      ∃ e', parseExpr ((Target.python.printer none).text oddAndQuotient) = .ok e' ∧
        e'.bare = oddAndQuotient.expanded.bare ∧
        (Target.python.printer none).text e' = (Target.python.printer none).text oddAndQuotient :=
        by
  have hparse : parseExpr "not Odd(x) and -2 // y" = .ok oddAndQuotient := by
    with_unfolding_all rfl
  refine ⟨hparse, by decide +kernel, ?_⟩
  apply Target.parseExpr_text_printer (by decide) hparse
  · decide
  · decide
  · simp [oddAndQuotient, Expr.parts, Expr.partsOfAll]
  · simp [oddAndQuotient, Expr.parts, Expr.partsOfAll]
  · simp

end BlockCode
