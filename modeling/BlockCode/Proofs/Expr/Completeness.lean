/- # What follows the grammar is read

A reader that stands before the tokens of a phrase goes through all of them and gives the tree of
the phrase, as long as what follows cannot belong to the phrase. Together with the soundness of
the readers this makes them a decision procedure for the grammar, and the grammar unambiguous.
-/

import BlockCode.Proofs.Expr.Soundness

namespace BlockCode

/-- Nothing in the tokens goes on with an expression of the level: they start with no operator
that binds tighter, with no arguments and with no position. -/
structure Ends (level : Precedence) (tokens : List Token) : Prop where
  stops : Stops level tokens
  noArguments : ∀ token ∈ tokens.head?, token.kind ≠ .leftParen
  noPosition : ∀ token ∈ tokens.head?, token.kind ≠ .leftBracket

theorem ends_nil {level : Precedence} : Ends level [] :=
  ⟨stops_nil, by simp, by simp⟩

/-- A token that closes or separates ends every expression. -/
theorem ends_closing {level : Precedence} {token : Token} {tokens : List Token}
    (h : token.kind = .rightParen ∨ token.kind = .rightBracket ∨ token.kind = .comma) :
    Ends level (token :: tokens) := by
  refine ⟨stops_cons.mpr ?_, ?_, ?_⟩
  · rcases h with h | h | h <;> simp [h, TokenKind.binaryOp?]
  · rcases h with h | h | h <;> simp [h]
  · rcases h with h | h | h <;> simp [h]

/-- An operator ends every expression that it does not bind tighter than. -/
theorem ends_operator {level : Precedence} {token : Token} {tokens : List Token} {op : BinaryOp}
    (hop : token.kind.binaryOp? = some op) (hle : op.precedence ≤ level) :
    Ends level (token :: tokens) := by
  refine ⟨stops_cons.mpr fun op' hop' => ?_, ?_, ?_⟩
  · cases hop.symm.trans hop'
    exact hle
  · intro other hother heq
    cases hother
    rw [heq] at hop
    cases hop
  · intro other hother heq
    cases hother
    rw [heq] at hop
    cases hop

theorem Ends.mono {level looser : Precedence} {tokens : List Token} (h : Ends looser tokens)
    (hle : looser ≤ level) : Ends level tokens :=
  ⟨h.stops.mono hle, h.noArguments, h.noPosition⟩

/-- The level that has to end behind an expression. Behind a power no second power may stand. -/
def Precedence.follower : Precedence → Precedence
  | .power => .unary
  | level => level

theorem Precedence.follower_eq {level operand : Precedence}
    (h : level.operands? = some operand) : level.follower = level ∧
      operand.follower = operand ∧ level ≤ operand := by
  revert h
  cases level <;> cases operand <;> decide

/-- The readers go through the tokens of the phrase, whatever follows them. For an expression
the reader may go on with operators behind it; what it gives is then what it gives when it
starts behind the expression. -/
def Phrase.ReadThrough : Phrase → List Token → Prop
  | .expr level e, ws => ∀ bound rest e' out, bound.above ≤ level →
      Ends level.follower rest → (parseOperators bound e rest).Reads e' out →
      (parseAbove bound (ws ++ rest)).Reads e' out
  | .operators level left e, ws => ∀ bound rest e' out, bound < level → Ends level rest →
      (parseOperators bound e rest).Reads e' out →
      (parseOperators bound left (ws ++ rest)).Reads e' out
  | .positions base e, ws => ∀ level rest, Ends level rest →
      (parsePositions base (ws ++ rest)).Reads e rest
  | .arguments args stop, ws => ∀ rest, (parseArguments (ws ++ rest)).Reads (args, stop) rest
  | .items args, ws => ∀ closing rest, closing.kind = .rightParen →
      (parseItems (ws ++ closing :: rest)).Reads args (closing :: rest)

/-- Before something that ends the expression the loop over operators stops. -/
theorem reads_parseOperators_of_stops {bound : Precedence} {e : Expr} {rest : List Token}
    (h : Stops bound rest) : (parseOperators bound e rest).Reads e rest := by
  cases rest with
  | nil => exact reads_parseOperators_nil.mpr ⟨rfl, rfl⟩
  | cons token rest =>
      rw [reads_parseOperators_cons]
      split
      · exact ⟨rfl, rfl⟩
      · next op hop =>
        rw [if_pos (stops_cons.mp h op hop)]
        exact ⟨rfl, rfl⟩

/-- No expression starts with a closing parenthesis. -/
theorem exists_cons_of_reads_parseAbove {bound : Precedence} {tokens rest : List Token} {e : Expr}
    (h : (parseAbove bound tokens).Reads e rest) :
    ∃ token tail, tokens = token :: tail ∧ token.kind ≠ .rightParen := by
  obtain ⟨left, mid, hleft, _⟩ := reads_parseAbove.mp h
  cases tokens with
  | nil => exact absurd hleft not_reads_parseOperand_nil
  | cons token tail =>
      refine ⟨token, tail, rfl, fun hkind => ?_⟩
      rw [reads_parseOperand_cons, hkind] at hleft
      exact hleft

namespace Phrase.ReadThrough

/-- A whole expression, read on its own. -/
theorem alone {e : Expr} {ws rest : List Token} (h : ReadThrough (.expr .or e) ws)
    (hends : Ends .lowest rest) : (parseAbove .lowest (ws ++ rest)).Reads e rest :=
  h .lowest rest e rest (by decide) (hends.mono (by decide))
    (reads_parseOperators_of_stops hends.stops)

/-- A whole expression in front of a token that closes or separates. -/
theorem before {e : Expr} {ws : List Token} {closing : Token} (h : ReadThrough (.expr .or e) ws)
    (hclosing : closing.kind = .rightParen ∨ closing.kind = .rightBracket ∨
      closing.kind = .comma) (rest : List Token) :
    (parseAbove .lowest (ws ++ closing :: rest)).Reads e (closing :: rest) :=
  h.alone (ends_closing hclosing)

/-- An operand of an operator in front or of a power, up to where it ends. -/
theorem signed {e : Expr} {ws rest : List Token} (h : ReadThrough (.expr .unary e) ws)
    (hends : Ends .unary rest) : (parseAbove .unary (ws ++ rest)).Reads e rest :=
  h .unary rest e rest (by decide) hends (reads_parseOperators_of_stops hends.stops)

/-- What the reader of operands takes whole is read through. -/
theorem of_parseOperand {level : Precedence} {e : Expr} {ws : List Token}
    (h : ∀ rest, Ends level.follower rest → (parseOperand (ws ++ rest)).Reads e rest) :
    ReadThrough (.expr level e) ws := by
  intro bound rest e' out _ hends hops
  exact reads_parseAbove.mpr ⟨e, rest, h rest hends, hops⟩

/-- A chain on one level: the first operand, then the operators. -/
theorem chain {level operand : Precedence} {first e : Expr} {ws vs : List Token}
    (hlevel : level.operands? = some operand) (hfirst : ReadThrough (.expr operand first) ws)
    (hrest : ReadThrough (.operators level first e) vs)
    (hhead : ∀ rest, Ends level rest → Ends level (vs ++ rest)) :
    ReadThrough (.expr level e) (ws ++ vs) := by
  intro bound rest e' out habove hends hops
  obtain ⟨hfollower, hfollower', hle⟩ := Precedence.follower_eq hlevel
  rw [hfollower] at hends
  rw [List.append_assoc]
  apply hfirst bound (vs ++ rest) e' out (Nat.le_trans habove hle)
  · rw [hfollower']
    exact (hhead rest hends).mono hle
  · exact hrest bound rest e' out (Precedence.lt_of_above_le habove hlevel) hends hops

theorem operator {level operand : Precedence} {left right e : Expr} {token : Token}
    {op : BinaryOp} {ws vs : List Token} (hlevel : level.operands? = some operand)
    (htoken : level.operator? token.kind = some op)
    (hright : ReadThrough (.expr operand right) ws)
    (hrest : ReadThrough
      (.operators level (.binary (left.span.merge right.span) op left right) e) vs)
    (hhead : ∀ rest, Ends level rest → Ends level (vs ++ rest)) :
    ReadThrough (.operators level left e) (token :: (ws ++ vs)) := by
  intro bound rest e' out hlt hends hops
  obtain ⟨hop, hprecedence, hbound, habove⟩ := binaryOp?_of_operator? hlevel htoken
  obtain ⟨_, hfollower, hle⟩ := Precedence.follower_eq hlevel
  have hmid := hhead rest hends
  have hnot : ¬ level ≤ bound := Nat.not_le_of_lt hlt
  rw [List.cons_append, List.append_assoc, reads_parseOperators_cons, hop]
  dsimp only
  rw [hprecedence, if_neg hnot, hbound]
  refine ⟨right, vs ++ rest, ?_, hrest bound rest e' out hlt hends hops⟩
  apply hright level (vs ++ rest) right (vs ++ rest) (Nat.le_of_eq (by rw [habove]))
  · rw [hfollower]
    exact hmid.mono hle
  · exact reads_parseOperators_of_stops hmid.stops

/-- A power takes its exponent with everything that the exponent's own operators take. -/
theorem raised {token : Token} {base exponent : Expr} {ws vs : List Token}
    (hbase : ReadThrough (.expr .primary base) ws) (htoken : token.kind = .power)
    (hexponent : ReadThrough (.expr .unary exponent) vs) :
    ReadThrough (.expr .power (.binary (base.span.merge exponent.span) .power base exponent))
      (ws ++ token :: vs) := by
  intro bound rest e' out habove hends hops
  have hop : token.kind.binaryOp? = some .power := by rw [htoken]; rfl
  have hbound : ¬ BinaryOp.power.precedence ≤ bound := by
    revert habove
    cases bound <;> decide
  rw [List.append_assoc]
  apply hbase bound _ e' out
  · revert habove
    cases bound <;> decide
  · exact ends_operator hop (by decide)
  · rw [List.cons_append, reads_parseOperators_cons, hop]
    dsimp only
    rw [if_neg hbound]
    exact ⟨exponent, rest, hexponent.signed hends, hops⟩

/-- An operator in front is read with everything that binds tighter. -/
theorem prefixed {op : UnaryOp} {token : Token} {operand : Expr} {ws : List Token}
    (htoken : token.kind = .minus ∧ op = .negate ∨ token.kind = .not ∧ op = .not)
    (hoperand : ReadThrough (.expr .unary operand) ws) :
    ReadThrough (.expr .unary (.unary (token.span.merge operand.span) op operand))
      (token :: ws) := by
  apply of_parseOperand
  intro rest hends
  have hread := hoperand.signed hends
  rw [List.cons_append, reads_parseOperand_cons]
  rcases htoken with ⟨hkind, rfl⟩ | ⟨hkind, rfl⟩
  · rw [hkind]
    exact ⟨operand, hread, rfl⟩
  · rw [hkind]
    exact ⟨operand, hread, rfl⟩

/-- Each level has the expressions of the next tighter one. -/
theorem loosen {level looser : Precedence} {e : Expr} {ws : List Token}
    (h : ReadThrough (.expr level e) ws) (hle : looser ≤ level)
    (hfollower : looser.follower ≤ level.follower) : ReadThrough (.expr looser e) ws := by
  intro bound rest e' out habove hends hops
  exact h bound rest e' out (Nat.le_trans habove hle) (hends.mono hfollower) hops

/-- What is read behind a name makes the name an operand. -/
theorem named {token : Token} {e : Expr} {ws : List Token} (htoken : token.kind = .name)
    (h : ∀ rest, Ends .primary rest →
      (parseNamed token.text token.span (ws ++ rest)).Reads e rest) :
    ReadThrough (.expr .primary e) (token :: ws) := by
  apply of_parseOperand
  intro rest hends
  rw [List.cons_append, reads_parseOperand_cons, htoken]
  exact h rest hends

/-- A name without arguments, with the positions behind it. -/
theorem plain {token : Token} {e : Expr} {ws : List Token} (htoken : token.kind = .name)
    (hrest : ReadThrough (.positions (.name token.span token.text) e) ws)
    (hhead : ∀ first ∈ ws.head?, first.kind ≠ .leftParen) :
    ReadThrough (.expr .primary e) (token :: ws) := by
  apply named htoken
  intro rest hends
  have hread := hrest .primary rest hends
  have hopen : ∀ first ∈ (ws ++ rest).head?, first.kind ≠ .leftParen := by
    cases ws with
    | nil => exact hends.noArguments
    | cons first ws => exact hhead
  cases heq : ws ++ rest with
  | nil =>
      rw [heq, reads_parsePositions_nil] at hread
      exact reads_parseNamed_nil.mpr hread
  | cons first tail =>
      rw [heq] at hread hopen
      rw [reads_parseNamed_cons, if_neg (hopen first rfl)]
      exact hread

/-- A name with arguments is called, and a built-in is checked before positions are read. -/
theorem called {token : Token} {args : List Expr} {stop : Nat} {head e : Expr}
    {ws vs : List Token} (htoken : token.kind = .name)
    (hargs : ReadThrough (.arguments args stop) ws)
    (hhead : match Builtin.ofName? token.text with
      | some function =>
        function.Admits args ∧ head = .builtin ⟨token.span.start, stop⟩ function args
      | none => head = .call ⟨token.span.start, stop⟩ token.text args false)
    (hrest : ReadThrough (.positions head e) vs) :
    ReadThrough (.expr .primary e) (token :: (ws ++ vs)) := by
  apply named htoken
  intro rest hends
  have hpositions := hrest .primary rest hends
  have hread := hargs (vs ++ rest)
  obtain ⟨opening, first, mid, heq, hopening, _⟩ := reads_parseArguments.mp hread
  rw [List.append_assoc, heq, reads_parseNamed_cons, if_pos hopening]
  rw [heq] at hread
  refine ⟨args, stop, vs ++ rest, hread, ?_⟩
  cases hname : Builtin.ofName? token.text with
  | none =>
      rw [hname] at hhead
      obtain rfl := hhead
      exact hpositions
  | some function =>
      rw [hname] at hhead
      obtain ⟨hadmits, rfl⟩ := hhead
      exact ⟨checkBuiltin_eq_ok_iff.mpr hadmits, hpositions⟩

theorem userCall {marker name : Token} {args : List Expr} {stop : Nat} {ws : List Token}
    (hmarker : marker.kind = .userMarker) (hname : name.kind = .name)
    (hargs : ReadThrough (.arguments args stop) ws) :
    ReadThrough (.expr .primary (.call ⟨marker.span.start, stop⟩ name.text args true))
      (marker :: name :: ws) := by
  apply of_parseOperand
  intro rest _
  rw [List.cons_append, reads_parseOperand_cons, hmarker]
  exact ⟨name, args, stop, ws ++ rest, rfl, hname, hargs rest, rfl⟩

theorem group {opening closing : Token} {inner : Expr} {ws : List Token}
    (hopening : opening.kind = .leftParen) (hinner : ReadThrough (.expr .or inner) ws)
    (hclosing : closing.kind = .rightParen) :
    ReadThrough (.expr .primary (.group ⟨opening.span.start, closing.span.stop⟩ inner))
      (opening :: (ws ++ [closing])) := by
  apply of_parseOperand
  intro rest _
  have hread := hinner.before (.inl hclosing) rest
  rw [List.cons_append, List.append_assoc, reads_parseOperand_cons, hopening]
  exact ⟨inner, closing, hread, hclosing, rfl⟩

theorem position {opening closing : Token} {base index e : Expr} {ws vs : List Token}
    (hopening : opening.kind = .leftBracket) (hindex : ReadThrough (.expr .or index) ws)
    (hclosing : closing.kind = .rightBracket)
    (hrest : ReadThrough
      (.positions (.index ⟨base.span.start, closing.span.stop⟩ base index) e) vs) :
    ReadThrough (.positions base e) (opening :: (ws ++ closing :: vs)) := by
  intro level rest hends
  have hread := hindex.before (.inr (.inl hclosing)) (vs ++ rest)
  rw [List.cons_append, List.append_assoc, reads_parsePositions_cons, if_pos hopening]
  exact ⟨index, closing, vs ++ rest, hread, hclosing, hrest level rest hends⟩

theorem arguments {opening closing : Token} {args : List Expr} {ws : List Token}
    (hopening : opening.kind = .leftParen) (hargs : ReadThrough (.items args) ws)
    (hclosing : closing.kind = .rightParen) :
    ReadThrough (.arguments args closing.span.stop) (opening :: (ws ++ [closing])) := by
  intro rest
  have hread := hargs closing rest hclosing
  obtain ⟨first, mid, hfirst, _⟩ := reads_parseItems.mp hread
  obtain ⟨token, tail, heq, hkind⟩ := exists_cons_of_reads_parseAbove hfirst
  rw [List.cons_append, List.append_assoc]
  refine reads_parseArguments.mpr ⟨opening, token, tail, by rw [← heq]; rfl, hopening, ?_⟩
  rw [if_neg hkind, ← heq]
  exact ⟨closing, hread, hclosing, rfl⟩

theorem lastItem {e : Expr} {ws : List Token} (he : ReadThrough (.expr .or e) ws) :
    ReadThrough (.items [e]) ws := by
  intro closing rest hclosing
  have hread := he.before (.inl hclosing) rest
  refine reads_parseItems.mpr ⟨e, closing :: rest, hread, ?_⟩
  dsimp only
  rw [if_neg (by simp [hclosing])]
  exact ⟨rfl, rfl⟩

theorem nextItem {e : Expr} {comma : Token} {args : List Expr} {ws vs : List Token}
    (he : ReadThrough (.expr .or e) ws) (hcomma : comma.kind = .comma)
    (hrest : ReadThrough (.items args) vs) :
    ReadThrough (.items (e :: args)) (ws ++ comma :: vs) := by
  intro closing rest hclosing
  have hread := he.before (.inr (.inr hcomma)) (vs ++ closing :: rest)
  rw [List.append_assoc]
  refine reads_parseItems.mpr ⟨e, _, hread, ?_⟩
  dsimp only
  rw [if_pos hcomma]
  exact ⟨args, hrest closing rest hclosing, rfl⟩

end Phrase.ReadThrough

/-- Operators start with an operator of their level, so they end what stands before them. -/
theorem Derives.ends_of_operators {level : Precedence} {left e : Expr} {vs rest : List Token}
    (h : Derives (.operators level left e) vs) (hends : Ends level rest) :
    Ends level (vs ++ rest) := by
  cases h with
  | noOperator => exact hends
  | operator hlevel htoken _ _ =>
      obtain ⟨hop, hprecedence, _⟩ := binaryOp?_of_operator? hlevel htoken
      exact ends_operator hop (Nat.le_of_eq (by rw [hprecedence]))

/-- Positions start with no parenthesis. -/
theorem Derives.head_of_positions {base e : Expr} {ws : List Token}
    (h : Derives (.positions base e) ws) : ∀ first ∈ ws.head?, first.kind ≠ .leftParen := by
  cases h with
  | noPosition => simp
  | position hopening _ _ _ => simp [hopening]

/-- The tokens of every phrase are read through. -/
theorem Derives.readThrough {phrase : Phrase} {ws : List Token} (h : Derives phrase ws) :
    phrase.ReadThrough ws := by
  induction h with
  | chain hlevel _ hrest ihfirst ihrest =>
      exact .chain hlevel ihfirst ihrest fun _ hends => hrest.ends_of_operators hends
  | noOperator => exact fun _ _ _ _ _ _ hops => hops
  | operator hlevel htoken _ hrest ihright ihrest =>
      exact .operator hlevel htoken ihright ihrest fun _ hends => hrest.ends_of_operators hends
  | negate htoken _ ih => exact .prefixed (.inl ⟨htoken, rfl⟩) ih
  | not htoken _ ih => exact .prefixed (.inr ⟨htoken, rfl⟩) ih
  | unsigned _ ih => exact ih.loosen (by decide) (by decide)
  | raised _ htoken _ ihbase ihexponent => exact .raised ihbase htoken ihexponent
  | unraised _ ih => exact ih.loosen (by decide) (by decide)
  | number htoken | string htoken | trueWord htoken | falseWord htoken =>
      apply Phrase.ReadThrough.of_parseOperand
      intro rest _
      rw [List.cons_append, reads_parseOperand_cons, htoken]
      exact ⟨rfl, rfl⟩
  | group hopening _ hclosing ih => exact .group hopening ih hclosing
  | userCall hmarker hname _ ih => exact .userCall hmarker hname ih
  | name htoken hrest ih => exact .plain htoken ih hrest.head_of_positions
  | call htoken hplain _ _ ihargs ihrest =>
      exact .called htoken ihargs (by rw [hplain]) ihrest
  | builtin htoken hbuiltin _ hadmits _ ihargs ihrest =>
      exact .called htoken ihargs (by rw [hbuiltin]; exact ⟨hadmits, rfl⟩) ihrest
  | noPosition =>
      intro level rest hends
      cases rest with
      | nil => exact reads_parsePositions_nil.mpr ⟨rfl, rfl⟩
      | cons token rest =>
          rw [List.nil_append, reads_parsePositions_cons, if_neg (hends.noPosition token rfl)]
          exact ⟨rfl, rfl⟩
  | position hopening _ hclosing _ ihindex ihrest =>
      exact .position hopening ihindex hclosing ihrest
  | noArgument hopening hclosing =>
      intro rest
      refine reads_parseArguments.mpr ⟨_, _, rest, rfl, hopening, ?_⟩
      rw [if_pos hclosing]
      exact ⟨rfl, rfl, rfl⟩
  | arguments hopening _ hclosing ih => exact .arguments hopening ih hclosing
  | lastItem _ ih => exact .lastItem ih
  | nextItem _ hcomma _ ihe ihrest => exact .nextItem ihe hcomma ihrest

/-- The reader takes all tokens for an expression exactly when they spell it. -/
theorem reads_parseAbove_lowest_iff_spells {tokens : List Token} {e : Expr} :
    (parseAbove .lowest tokens).Reads e [] ↔ Spells tokens e := by
  constructor
  · intro h
    obtain ⟨ws, htokens, hderives, _⟩ := derives_of_reads_parseAbove (by decide) h
    rw [htokens, List.append_nil]
    exact hderives
  · intro h
    have hread := Phrase.ReadThrough.alone h.readThrough ends_nil
    rwa [List.append_nil] at hread

/-- The grammar is unambiguous: tokens spell at most one expression. -/
theorem Spells.unique {tokens : List Token} {e e' : Expr} (h : Spells tokens e)
    (h' : Spells tokens e') : e' = e :=
  ((reads_parseAbove_lowest_iff_spells.mpr h').unique
    (reads_parseAbove_lowest_iff_spells.mpr h)).1

/-- Parsing tokens is reading one expression and finding nothing behind it. -/
theorem parseTokens_eq_ok_iff {tokens : List Token} {e : Expr} :
    parseTokens tokens = .ok e ↔ (parseAbove .lowest tokens).Reads e [] := by
  cases tokens with
  | nil =>
      constructor
      · intro h
        cases h
      · intro h
        obtain ⟨_, _, heq, _⟩ := exists_cons_of_reads_parseAbove h
        cases heq
  | cons token tokens =>
      unfold parseTokens
      cases hread : parseAbove .lowest (token :: tokens) with
      | error err =>
          constructor
          · intro h
            cases h
          · intro h
            exact absurd h Parsed.not_reads_error
      | ok p =>
          obtain ⟨⟨e', rest⟩, hlt⟩ := p
          rw [Parsed.reads_ok]
          cases rest with
          | nil => simp [bind, Except.bind, pure, Except.pure, expectEnd, eq_comm]
          | cons first rest => simp [bind, Except.bind, expectEnd]

/-- Parsing decides the grammar. It succeeds on exactly the tokens that spell an expression,
with that expression, and no tokens spell two. -/
theorem parseTokens_decides_grammar (tokens : List Token) (e : Expr) :
    (parseTokens tokens = .ok e ↔ Spells tokens e) ∧
      (Spells tokens e → ∀ e', Spells tokens e' → e' = e) := by
  constructor
  · rw [parseTokens_eq_ok_iff, reads_parseAbove_lowest_iff_spells]
  · intro h e' h'
    exact h.unique h'

end BlockCode
