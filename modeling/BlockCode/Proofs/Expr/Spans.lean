/- # Spans and the texts they cut out

An expression is spelled by the tokens between two places of its text, and each part by some of
these tokens in a row. The operands of a part are spelled one behind the other, with the part's own
tokens around them. So the span of a part, which goes from its first token to its last one, lies in
the span of what it is a part of, and the spans of operands do not meet.

Where operands of operators are concerned, the tokens of a part come from a level of the grammar
that binds tighter than the whole. That they spell the part by themselves is the layering of the
grammar: a tighter expression is an expression of every looser level. What is left to say is that
the tokens are read from the slice of the text too, where they stand further in front. Moving all
tokens moves the tree that they spell, since the grammar compares places and does not compute with
them.
-/

import BlockCode.Proofs.Expr.Equality
import BlockCode.Proofs.Expr.Places
import BlockCode.Proofs.Expr.Slices

namespace BlockCode

/-! ## Moved expressions -/

namespace Expr

mutual

/-- The expression as it is read where all places have changed. -/
def moved (f : Nat → Nat) : Expr → Expr
  | .number span text => .number (span.moved f) text
  | .string span contents => .string (span.moved f) contents
  | .bool span value => .bool (span.moved f) value
  | .name span word => .name (span.moved f) word
  | .index span base position => .index (span.moved f) (base.moved f) (position.moved f)
  | .call span word args userDefined => .call (span.moved f) word (movedAll f args) userDefined
  | .builtin span function args => .builtin (span.moved f) function (movedAll f args)
  | .unary span op operand => .unary (span.moved f) op (operand.moved f)
  | .binary span op left right => .binary (span.moved f) op (left.moved f) (right.moved f)
  | .group span inner => .group (span.moved f) (inner.moved f)

/-- The expressions as they are read where all places have changed. -/
def movedAll (f : Nat → Nat) : List Expr → List Expr
  | [] => []
  | e :: rest => e.moved f :: movedAll f rest

end

variable {f : Nat → Nat}

theorem movedAll_eq_map (exprs : List Expr) : movedAll f exprs = exprs.map (moved f) := by
  induction exprs with
  | nil => rfl
  | cons e exprs ih => rw [movedAll, ih, List.map_cons]

theorem span_moved (e : Expr) : (e.moved f).span = e.span.moved f := by
  cases e <;> rfl

mutual

theorem unplaced_moved : ∀ e : Expr, (e.moved f).unplaced = e.unplaced
  | .group _ inner => by rw [moved, unplaced, unplaced, unplaced_moved inner]
  | .binary _ _ left right => by
      rw [moved, unplaced, unplaced, unplaced_moved left, unplaced_moved right]
  | .unary _ _ operand => by rw [moved, unplaced, unplaced, unplaced_moved operand]
  | .index _ base position => by
      rw [moved, unplaced, unplaced, unplaced_moved base, unplaced_moved position]
  | .call _ _ args _ => by rw [moved, unplaced, unplaced, unplacedAll_movedAll args]
  | .builtin _ _ args => by rw [moved, unplaced, unplaced, unplacedAll_movedAll args]
  | .number .. | .string .. | .bool .. | .name .. => rfl

theorem unplacedAll_movedAll : ∀ exprs : List Expr,
    unplacedAll (movedAll f exprs) = unplacedAll exprs
  | [] => rfl
  | e :: exprs => by
      rw [movedAll, unplacedAll, unplacedAll, unplaced_moved e, unplacedAll_movedAll exprs]

end

end Expr

theorem Span.moved_merge {f : Nat → Nat} (hf : Monotone f) (a b : Span) :
    (a.merge b).moved f = (a.moved f).merge (b.moved f) := by
  rw [merge, merge, moved, moved, moved, hf.map_min, hf.map_max]

/-- The phrase of the moved trees. -/
def Phrase.moved (f : Nat → Nat) : Phrase → Phrase
  | .expr level e => .expr level (e.moved f)
  | .operators level left e => .operators level (left.moved f) (e.moved f)
  | .positions base e => .positions (base.moved f) (e.moved f)
  | .arguments args stop => .arguments (args.map (Expr.moved f)) (f stop)
  | .items args => .items (args.map (Expr.moved f))

theorem Builtin.Admits.moved {function : Builtin} {args : List Expr} (h : function.Admits args)
    (f : Nat → Nat) : function.Admits (args.map (Expr.moved f)) := by
  refine h.of_unplaced ?_
  rw [List.map_map]
  exact List.map_congr_left fun e _ => e.unplaced_moved

theorem Token.kind_moved {f : Nat → Nat} {token : Token} {kind : TokenKind}
    (h : token.kind = kind) : (token.moved f).kind = kind :=
  h

/-- Moved tokens derive from the moved phrase, if none changes places with another. -/
theorem Derives.moved {f : Nat → Nat} (hf : Monotone f) {phrase : Phrase} {ws : List Token}
    (h : Derives phrase ws) : Derives (phrase.moved f) (ws.map (Token.moved f)) := by
  induction h with
  | chain hlevel _ _ ihfirst ihrest =>
      rw [List.map_append]
      exact .chain hlevel ihfirst ihrest
  | noOperator => exact .noOperator
  | operator hlevel htoken _ _ ihright ihrest =>
      rw [List.map_cons, List.map_append]
      refine .operator hlevel htoken ihright ?_
      rw [Phrase.moved, Expr.moved, Span.moved_merge hf] at ihrest
      rw [Expr.span_moved, Expr.span_moved]
      exact ihrest
  | negate htoken _ ih =>
      rw [Phrase.moved, Expr.moved, Span.moved_merge hf, ← Expr.span_moved]
      exact .negate (Token.kind_moved htoken) ih
  | not htoken _ ih =>
      rw [Phrase.moved, Expr.moved, Span.moved_merge hf, ← Expr.span_moved]
      exact .not (Token.kind_moved htoken) ih
  | unsigned _ ih => exact .unsigned ih
  | raised _ htoken _ ihbase ihexponent =>
      rw [List.map_append, List.map_cons, Phrase.moved, Expr.moved, Span.moved_merge hf,
        ← Expr.span_moved, ← Expr.span_moved]
      exact .raised ihbase htoken ihexponent
  | unraised _ ih => exact .unraised ih
  | number htoken => exact .number (Token.kind_moved htoken)
  | string htoken => exact .string (Token.kind_moved htoken)
  | trueWord htoken => exact .trueWord (Token.kind_moved htoken)
  | falseWord htoken => exact .falseWord (Token.kind_moved htoken)
  | group hopening _ hclosing ih =>
      rw [List.map_cons, List.map_append, List.map_singleton]
      exact .group (Token.kind_moved hopening) ih (Token.kind_moved hclosing)
  | userCall hmarker hname _ ih =>
      rw [List.map_cons, List.map_cons, Phrase.moved, Expr.moved, Expr.movedAll_eq_map]
      exact .userCall (Token.kind_moved hmarker) (Token.kind_moved hname) ih
  | name htoken _ ih =>
      rw [List.map_cons]
      exact .name htoken ih
  | call htoken hplain _ _ ihargs ihrest =>
      rw [List.map_cons, List.map_append]
      rw [Phrase.moved, Expr.moved, Expr.movedAll_eq_map] at ihrest
      exact .call htoken hplain ihargs ihrest
  | builtin htoken hbuiltin _ hadmits _ ihargs ihrest =>
      rw [List.map_cons, List.map_append]
      rw [Phrase.moved, Expr.moved, Expr.movedAll_eq_map] at ihrest
      exact .builtin htoken hbuiltin ihargs (hadmits.moved f) ihrest
  | noPosition => exact .noPosition
  | position hopening _ hclosing _ ihindex ihrest =>
      rw [List.map_cons, List.map_append, List.map_cons]
      refine .position hopening ihindex hclosing ?_
      rw [Expr.span_moved]
      exact ihrest
  | noArgument hopening hclosing =>
      exact .noArgument (Token.kind_moved hopening) (Token.kind_moved hclosing)
  | arguments hopening _ hclosing ih =>
      rw [List.map_cons, List.map_append, List.map_singleton]
      exact .arguments (Token.kind_moved hopening) ih (Token.kind_moved hclosing)
  | lastItem _ ih => exact .lastItem ih
  | nextItem _ hcomma _ ihe ihrest =>
      rw [List.map_append, List.map_cons]
      exact .nextItem ihe hcomma ihrest

/-! ## Spans -/

/-- What a phrase says of spans: the span of its tree goes from the first token to the last one. -/
def Phrase.Covered : Phrase → List Token → Prop
  | .expr _ e, ws => Ordered ws → e.span.Covers ws
  | .operators _ left e, ws | .positions left e, ws =>
      ∀ us, Ordered (us ++ ws) → left.span.Covers us → e.span.Covers (us ++ ws)
  | .arguments _ stop, ws => ws.getLast?.map (·.span.stop) = some stop
  | .items _, _ => True

/-- What ends with its arguments is covered from its first token on. -/
theorem Span.covers_of_last {ws : List Token} {stop : Nat}
    (h : ws.getLast?.map (·.span.stop) = some stop) (token : Token) (us : List Token) :
    Span.Covers ⟨token.span.start, stop⟩ (token :: (us ++ ws)) := by
  refine ⟨rfl, ?_⟩
  obtain ⟨last, hlast, hstop⟩ := Option.map_eq_some_iff.mp h
  rw [← List.cons_append, List.getLast?_append, hlast]
  exact congrArg some hstop

theorem Derives.covered {phrase : Phrase} {ws : List Token} (h : Derives phrase ws) :
    phrase.Covered ws := by
  induction h with
  | chain _ _ _ ihfirst ihrest =>
      exact fun hordered => ihrest _ hordered (ihfirst (Ordered.append_iff.mp hordered).1)
  | noOperator | noPosition => exact fun us _ hleft => by rwa [List.append_nil]
  | @operator _ _ left right e token op ws vs _ _ _ _ ihright ihrest =>
      intro us hordered hleft
      have hassoc : us ++ token :: (ws ++ vs) = us ++ [token] ++ ws ++ vs := by simp
      rw [hassoc] at hordered ⊢
      have hfront := (Ordered.append_iff.mp hordered).1
      have hright := ihright (Ordered.append_iff.mp hfront).2.1
      exact ihrest _ hordered (hleft.merge hright [token] hfront)
  | @negate token _ ws _ _ ih | @not token _ ws _ _ ih =>
      intro hordered
      have hoperand := ih (hordered.of_isInfix (List.suffix_cons token ws).isInfix)
      exact token.covers.merge hoperand [] hordered
  | unsigned _ ih | unraised _ ih => exact ih
  | @raised token _ _ ws vs _ _ _ ihbase ihexponent =>
      intro hordered
      have hassoc : ws ++ token :: vs = ws ++ [token] ++ vs := by simp
      rw [hassoc] at hordered ⊢
      have hfront := (Ordered.append_iff.mp hordered).1
      have hbase := ihbase (Ordered.append_iff.mp hfront).1
      exact hbase.merge (ihexponent (Ordered.append_iff.mp hordered).2.1) [token] hordered
  | number | string | trueWord | falseWord => exact fun _ => Token.covers _
  | @group opening closing _ ws _ _ _ _ =>
      exact fun _ => opening.covers.append closing.covers ws
  | @userCall marker name _ _ _ _ _ _ ih => exact fun _ => Span.covers_of_last ih marker [name]
  | name _ _ ih => exact fun hordered => ih [_] hordered (Token.covers _)
  | @call token _ _ _ ws vs _ _ _ _ ihargs ihrest =>
      exact fun hordered => ihrest (token :: ws) hordered (Span.covers_of_last ihargs token [])
  | @builtin token _ _ _ _ ws vs _ _ _ _ _ ihargs ihrest =>
      exact fun hordered => ihrest (token :: ws) hordered (Span.covers_of_last ihargs token [])
  | @position opening closing _ _ _ ws vs _ _ _ _ _ ihrest =>
      intro us hordered hbase
      have hassoc : us ++ opening :: (ws ++ closing :: vs) =
          us ++ (opening :: ws) ++ [closing] ++ vs := by
        simp
      rw [hassoc] at hordered ⊢
      exact ihrest _ hordered (hbase.append closing.covers _)
  | noArgument => rfl
  | @arguments opening closing _ ws _ _ _ _ =>
      rw [Phrase.Covered, ← List.cons_append, List.getLast?_concat]
      rfl
  | lastItem | nextItem => trivial

/-- The span of an expression goes from the first token that spells it to the last one. -/
theorem Spells.covers {e : Expr} {ws : List Token} (h : Spells ws e) (hordered : Ordered ws) :
    e.span.Covers ws :=
  h.covered hordered

/-! ## Parts -/

/-- The operands, arguments and other expressions that the expression is built from. -/
def Expr.children : Expr → List Expr
  | .number .. | .string .. | .bool .. | .name .. => []
  | .index _ base position => [base, position]
  | .call _ _ args _ | .builtin _ _ args => args
  | .unary _ _ operand => [operand]
  | .binary _ _ left right => [left, right]
  | .group _ inner => [inner]

theorem Expr.parts_eq_cons (e : Expr) : e.parts = e :: partsOfAll e.children := by
  cases e <;> simp [parts, children, partsOfAll]

/-- The expressions are spelled by some of the tokens each, one behind the other. -/
inductive SpelledInTurn : List Expr → List Token → Prop
  | nil {ws : List Token} : SpelledInTurn [] ws
  | cons {e : Expr} {es : List Expr} {us ws vs : List Token} (he : Spells ws e)
      (hrest : SpelledInTurn es vs) : SpelledInTurn (e :: es) (us ++ ws ++ vs)

/-- Some of the tokens in a row spell the part, and some of these its children. -/
def Placed (ws : List Token) (part : Expr) : Prop :=
  ∃ vs, vs <:+: ws ∧ Spells vs part ∧ SpelledInTurn part.children vs

section Arrangements

variable {e : Expr} {es : List Expr} {us ws vs : List Token}

theorem SpelledInTurn.append_left (h : SpelledInTurn es ws) (us : List Token) :
    SpelledInTurn es (us ++ ws) := by
  cases h with
  | nil => exact .nil
  | cons he hrest =>
      rw [← List.append_assoc, ← List.append_assoc]
      exact .cons he hrest

theorem SpelledInTurn.append_right (h : SpelledInTurn es ws) (vs : List Token) :
    SpelledInTurn es (ws ++ vs) := by
  induction h with
  | nil => exact .nil
  | cons he _ ih =>
      rw [List.append_assoc]
      exact .cons he ih

theorem SpelledInTurn.of_isInfix (h : SpelledInTurn es vs) (hvs : vs <:+: ws) :
    SpelledInTurn es ws := by
  obtain ⟨front, behind, rfl⟩ := hvs
  exact (h.append_left front).append_right behind

theorem SpelledInTurn.singleton (h : Spells ws e) (us vs : List Token) :
    SpelledInTurn [e] (us ++ ws ++ vs) :=
  .cons h .nil

theorem Placed.of_isInfix {part : Expr} (h : Placed vs part) (hvs : vs <:+: ws) :
    Placed ws part := by
  obtain ⟨run, hrun, hspells, hchildren⟩ := h
  exact ⟨run, hrun.trans hvs, hspells, hchildren⟩

/-- Every part of the expression is placed if the children are spelled in turn and their parts are
placed. -/
theorem placed_of_children (hspells : Spells ws e) (hinTurn : SpelledInTurn e.children ws)
    (hchildren : ∀ child ∈ e.children, ∀ part ∈ child.parts, Placed ws part) :
    ∀ part ∈ e.parts, Placed ws part := by
  rw [Expr.parts_eq_cons, List.forall_mem_cons, Expr.forall_mem_partsOfAll]
  exact ⟨⟨ws, List.infix_refl ws, hspells, hinTurn⟩, hchildren⟩

/-- Two children with tokens in front of, between and behind theirs. -/
theorem SpelledInTurn.pair {left right : Expr} (hleft : Spells us left) (hright : Spells vs right)
    (front between behind : List Token) :
    SpelledInTurn [left, right] (front ++ us ++ (between ++ vs ++ behind)) :=
  .cons hleft (.singleton hright between behind)

/-- The parts of a tree with two children, around whose tokens other tokens stand. -/
theorem placed_of_pair (between behind : List Token) {left right : Expr}
    (hchildren : e.children = [left, right])
    (hspells : Spells (us ++ between ++ vs ++ behind) e)
    (hleft : Spells us left) (hright : Spells vs right)
    (hleftParts : ∀ part ∈ left.parts, Placed us part)
    (hrightParts : ∀ part ∈ right.parts, Placed vs part) :
    ∀ part ∈ e.parts, Placed (us ++ between ++ vs ++ behind) part := by
  refine placed_of_children hspells ?_ ?_
  · have hinTurn := SpelledInTurn.pair hleft hright [] between behind
    rw [hchildren]
    simpa using hinTurn
  · rw [hchildren, List.forall_mem_cons, List.forall_mem_singleton]
    refine ⟨fun part hpart => (hleftParts part hpart).of_isInfix ?_,
      fun part hpart => (hrightParts part hpart).of_isInfix ?_⟩
    · exact ⟨[], between ++ vs ++ behind, by simp⟩
    · exact ⟨us ++ between, behind, by simp⟩

/-- The parts of a tree with one child. -/
theorem placed_of_single (front behind : List Token) {child : Expr}
    (hchildren : e.children = [child]) (hspells : Spells (front ++ ws ++ behind) e)
    (hchild : Spells ws child) (hparts : ∀ part ∈ child.parts, Placed ws part) :
    ∀ part ∈ e.parts, Placed (front ++ ws ++ behind) part := by
  refine placed_of_children hspells ?_ ?_
  · rw [hchildren]
    exact .singleton hchild front behind
  · rw [hchildren, List.forall_mem_singleton]
    exact fun part hpart => (hparts part hpart).of_isInfix ⟨front, behind, rfl⟩

/-- The parts of a call, whose arguments end it. -/
theorem placed_of_arguments (front : List Token) {args : List Expr} (hchildren : e.children = args)
    (hspells : Spells (front ++ ws) e)
    (hargs : SpelledInTurn args ws ∧ ∀ arg ∈ args, ∀ part ∈ arg.parts, Placed ws part) :
    ∀ part ∈ e.parts, Placed (front ++ ws) part := by
  have hinfix : ws <:+: front ++ ws := (List.suffix_append front ws).isInfix
  refine placed_of_children hspells ?_ ?_
  · rw [hchildren]
    exact hargs.1.of_isInfix hinfix
  · rw [hchildren]
    exact fun arg harg part hpart => (hargs.2 arg harg part hpart).of_isInfix hinfix

end Arrangements

/-- What a phrase says of the parts of its tree. -/
def Phrase.PartsPlaced : Phrase → List Token → Prop
  | .expr _ e, ws => ∀ part ∈ e.parts, Placed ws part
  | .operators level left e, ws => ∀ us, Derives (.expr level left) us →
      (∀ part ∈ left.parts, Placed us part) → ∀ part ∈ e.parts, Placed (us ++ ws) part
  | .positions base e, ws => ∀ us,
      (∀ e' vs, Derives (.positions base e') vs → Derives (.expr .primary e') (us ++ vs)) →
      (∀ part ∈ base.parts, Placed us part) → ∀ part ∈ e.parts, Placed (us ++ ws) part
  | .arguments args _, ws | .items args, ws =>
      SpelledInTurn args ws ∧ ∀ arg ∈ args, ∀ part ∈ arg.parts, Placed ws part

/-- An expression of any level is spelled by its tokens alone. -/
theorem Derives.spells {level : Precedence} {e : Expr} {ws : List Token}
    (h : Derives (.expr level e) ws) : Spells ws e := by
  refine h.of_le ?_ (by decide)
  cases level with
  | lowest =>
      cases h with
      | chain hlevel _ _ => cases hlevel
  | _ => decide

/-- The parts of an expression without children. -/
theorem placed_of_childless {e : Expr} {ws : List Token} (hchildren : e.children = [])
    (hspells : Spells ws e) : ∀ part ∈ e.parts, Placed ws part := by
  refine placed_of_children hspells ?_ ?_
  · rw [hchildren]
    exact .nil
  · rw [hchildren]
    exact List.forall_mem_nil _

theorem Derives.partsPlaced {phrase : Phrase} {ws : List Token} (h : Derives phrase ws) :
    phrase.PartsPlaced ws := by
  induction h with
  | chain hlevel hfirst _ ihfirst ihrest =>
      refine ihrest _ ?_ ihfirst
      simpa using Derives.chain hlevel hfirst .noOperator
  | noOperator => exact fun us _ hleft => by rwa [List.append_nil]
  | noPosition => exact fun us _ hbase => by rwa [List.append_nil]
  | @operator level _ left right e token op ws vs hlevel htoken hright _ ihright ihrest =>
      intro us hleft hparts
      have hassoc : us ++ token :: (ws ++ vs) = us ++ token :: ws ++ vs := by simp
      have hsplit : us ++ token :: ws = us ++ [token] ++ ws ++ [] := by simp
      have hnode := hleft.chain_snoc hlevel htoken hright
      rw [hassoc]
      refine ihrest _ hnode ?_
      rw [hsplit] at hnode ⊢
      exact placed_of_pair [token] [] rfl hnode.spells hleft.spells hright.spells hparts ihright
  | @negate token _ ws htoken hoperand ih =>
      have hnode := (Derives.negate htoken hoperand).spells
      rw [← List.append_nil ws] at hnode ⊢
      exact placed_of_single [token] [] rfl hnode hoperand.spells ih
  | @not token _ ws htoken hoperand ih =>
      have hnode := (Derives.not htoken hoperand).spells
      rw [← List.append_nil ws] at hnode ⊢
      exact placed_of_single [token] [] rfl hnode hoperand.spells ih
  | unsigned _ ih | unraised _ ih => exact ih
  | @raised token _ _ ws vs hbase htoken hexponent ihbase ihexponent =>
      have hsplit : ws ++ token :: vs = ws ++ [token] ++ vs ++ [] := by simp
      have hnode := (Derives.raised hbase htoken hexponent).spells
      rw [hsplit] at hnode ⊢
      exact placed_of_pair [token] [] rfl hnode hbase.spells hexponent.spells ihbase ihexponent
  | number htoken => exact placed_of_childless rfl (Derives.number htoken).spells
  | string htoken => exact placed_of_childless rfl (Derives.string htoken).spells
  | trueWord htoken => exact placed_of_childless rfl (Derives.trueWord htoken).spells
  | falseWord htoken => exact placed_of_childless rfl (Derives.falseWord htoken).spells
  | @group opening closing _ ws hopening hinner hclosing ih =>
      exact placed_of_single [opening] [closing] rfl
        (Derives.group hopening hinner hclosing).spells hinner.spells ih
  | @userCall marker name _ _ ws hmarker hname hargs ih =>
      exact placed_of_arguments [marker, name] rfl (Derives.userCall hmarker hname hargs).spells ih
  | @name token _ _ htoken _ ih =>
      exact ih [token] (fun _ _ hpositions => .name htoken hpositions)
        (placed_of_childless rfl (Derives.name htoken .noPosition).spells)
  | @call token _ _ _ ws vs htoken hplain hargs _ ihargs ihrest =>
      have hextends : ∀ e' vs', Derives (.positions _ e') vs' →
          Derives (.expr .primary e') (token :: ws ++ vs') :=
        fun _ _ hpositions => .call htoken hplain hargs hpositions
      have hnode := (hextends _ [] .noPosition).spells
      rw [List.append_nil] at hnode
      exact ihrest _ hextends (placed_of_arguments [token] rfl hnode ihargs)
  | @builtin token _ _ _ _ ws vs htoken hbuiltin hargs hadmits _ ihargs ihrest =>
      have hextends : ∀ e' vs', Derives (.positions _ e') vs' →
          Derives (.expr .primary e') (token :: ws ++ vs') :=
        fun _ _ hpositions => .builtin htoken hbuiltin hargs hadmits hpositions
      have hnode := (hextends _ [] .noPosition).spells
      rw [List.append_nil] at hnode
      exact ihrest _ hextends (placed_of_arguments [token] rfl hnode ihargs)
  | @position opening closing base index _ ws vs hopening hindex hclosing _ ihindex ihrest =>
      intro us hextends hparts
      have hbase := (hextends _ [] .noPosition).spells
      have hnext : ∀ e' vs', Derives
          (.positions (.index ⟨base.span.start, closing.span.stop⟩ base index) e') vs' →
          Derives (.expr .primary e') (us ++ [opening] ++ ws ++ [closing] ++ vs') := by
        intro e' vs' hpositions
        simpa using hextends e' _ (.position hopening hindex hclosing hpositions)
      have hassoc : us ++ opening :: (ws ++ closing :: vs) =
          us ++ [opening] ++ ws ++ [closing] ++ vs := by
        simp
      have hnode := (hnext _ [] .noPosition).spells
      rw [List.append_nil] at hbase hnode
      rw [hassoc]
      exact ihrest _ hnext
        (placed_of_pair [opening] [closing] rfl hnode hbase hindex.spells hparts ihindex)
  | noArgument => exact ⟨.nil, List.forall_mem_nil _⟩
  | @arguments opening closing _ ws _ _ _ ih =>
      have hinfix : ws <:+: opening :: (ws ++ [closing]) := ⟨[opening], [closing], rfl⟩
      exact ⟨ih.1.of_isInfix hinfix,
        fun arg harg part hpart => (ih.2 arg harg part hpart).of_isInfix hinfix⟩
  | @lastItem _ ws he ih =>
      refine ⟨?_, List.forall_mem_singleton.mpr ih⟩
      simpa using SpelledInTurn.singleton he.spells [] []
  | @nextItem e comma _ ws vs he hcomma _ ihe ihrest =>
      have hfront : ws <:+: ws ++ comma :: vs := (List.prefix_append _ _).isInfix
      have hbehind : vs <:+: ws ++ comma :: vs := ⟨ws ++ [comma], [], by simp⟩
      refine ⟨?_, List.forall_mem_cons.mpr
        ⟨fun part hpart => (ihe part hpart).of_isInfix hfront, ?_⟩⟩
      · simpa using @SpelledInTurn.cons e _ [] ws _ he.spells (ihrest.1.append_left [comma])
      · exact fun arg harg part hpart => (ihrest.2 arg harg part hpart).of_isInfix hbehind

/-- Expressions that are spelled one behind the other have spans one behind the other. -/
theorem SpelledInTurn.spans {es : List Expr} {ws : List Token} (h : SpelledInTurn es ws)
    (hordered : Ordered ws) :
    (∀ e ∈ es, ∃ vs, vs <:+: ws ∧ e.span.Covers vs) ∧
      es.Pairwise fun e next => e.span.stop ≤ next.span.start := by
  induction h with
  | nil => exact ⟨List.forall_mem_nil _, .nil⟩
  | @cons e es us ws vs he _ ih =>
      have hfront := (Ordered.append_iff.mp hordered).1
      have hspan := he.covers (Ordered.append_iff.mp hfront).2.1
      obtain ⟨hruns, hpairs⟩ := ih (Ordered.append_iff.mp hordered).2.1
      constructor
      · rw [List.forall_mem_cons]
        refine ⟨⟨ws, ⟨us, vs, rfl⟩, hspan⟩, fun next hnext => ?_⟩
        obtain ⟨run, hrun, hcovers⟩ := hruns next hnext
        exact ⟨run, hrun.trans (List.suffix_append _ vs).isInfix, hcovers⟩
      · rw [List.pairwise_cons]
        refine ⟨fun next hnext => ?_, hpairs⟩
        obtain ⟨run, hrun, hcovers⟩ := hruns next hnext
        have hbehind := hordered.of_isInfix (List.append_assoc us ws vs ▸
          (List.suffix_append us (ws ++ vs)).isInfix)
        exact hbehind.covers_le hspan hrun hcovers

/-! ## Slices -/

theorem not_spells_nil {e : Expr} : ¬ Spells [] e := by
  intro h
  obtain ⟨_, _, heq, -⟩ :=
    exists_cons_of_reads_parseAbove (reads_parseAbove_lowest_iff_spells.mpr h)
  cases heq

/-- Tokens further in front spell the expression further in front. -/
theorem Spells.exists_of_moved {tokens : List Token} {n : Nat} {e : Expr}
    (h : Spells (tokens.map (Token.moved (· + n))) e) :
    ∃ e', Spells tokens e' ∧ e'.moved (· + n) = e := by
  have hback : (tokens.map (Token.moved (· + n))).map (Token.moved (· - n)) = tokens := by
    rw [List.map_map]
    refine List.map_id'' (fun token => ?_) tokens
    obtain ⟨kind, ⟨start, stop⟩, text⟩ := token
    simp [Token.moved, Span.moved]
  have hspells : Spells _ (e.moved (· - n)) :=
    Derives.moved (fun _ _ hle => Nat.sub_le_sub_right hle n) h
  rw [hback] at hspells
  refine ⟨e.moved (· - n), hspells, h.unique ?_⟩
  exact Derives.moved (fun _ _ hle => Nat.add_le_add_right hle n) hspells

theorem Span.Covers.unique {span other : Span} {ws : List Token} (h : span.Covers ws)
    (hother : other.Covers ws) : span = other := by
  obtain ⟨start, stop⟩ := span
  obtain ⟨start', stop'⟩ := other
  obtain rfl : start = start' := Option.some.inj (h.start.symm.trans hother.start)
  obtain rfl : stop = stop' := Option.some.inj (h.stop.symm.trans hother.stop)
  rfl

/-- The slice of a text at the span that some of its tokens cover is read as what they spell. -/
theorem exists_parseExpr_slice {text : String} {tokens ws : List Token} {e : Expr}
    (hlex : lex text = .ok tokens) (hws : ws <:+: tokens) (hspells : Spells ws e)
    (hordered : Ordered ws) :
    e.span.Within ⟨0, text.utf8ByteSize⟩ ∧
      ∃ e', parseExpr (String.Pos.Raw.extract text ⟨e.span.start⟩ ⟨e.span.stop⟩) = .ok e' ∧
        e'.moved (· + e.span.start) = e := by
  have hne : ws ≠ [] := by
    rintro rfl
    exact not_spells_nil hspells
  obtain ⟨before, slice, after, htext, hread, hcovers⟩ :=
    exists_lexFrom_slice hlex hws hne hspells.ne_unclosedString
  have hspan : e.span = ⟨utf8Length before, utf8Length before + utf8Length slice⟩ := by
    rw [(hspells.covers hordered).unique hcovers, Nat.zero_add]
  have hsize : text.utf8ByteSize = utf8Length before + utf8Length slice + utf8Length after := by
    rw [utf8ByteSize_eq_utf8Length, htext, utf8Length_append, utf8Length_append]
  have hnonempty : e.span.start < e.span.stop :=
    (hordered.covers_within (hspells.covers hordered) (List.infix_refl ws)
      (hspells.covers hordered)).2.1
  have hcut : String.Pos.Raw.extract text ⟨e.span.start⟩ ⟨e.span.stop⟩ = String.ofList slice := by
    rw [hspan]
    exact extract_of_toList_eq htext
  constructor
  · refine ⟨Nat.zero_le _, hnonempty, ?_⟩
    rw [hspan, hsize]
    exact Nat.le_add_right _ _
  · obtain ⟨tokens', hread', -⟩ := exists_lexFrom_eq hread 0
    rw [lexFrom_add hread'] at hread
    obtain rfl := Except.ok.inj hread
    obtain ⟨e', hspells', hmoved⟩ := hspells.exists_of_moved
    refine ⟨e', ?_, by rw [hspan]; simpa using hmoved⟩
    have hlex' : lex (String.ofList slice) = .ok tokens' := by
      rw [lex, String.toList_ofList]
      exact hread'
    rw [hcut, parseExpr, lexExpr, hlex']
    exact (parseTokens_decides_grammar tokens' e').1.mpr hspells'

/-- Spans delimit what they belong to. Every part of an expression that was read has a span in the
text; the spans of its children lie in its own, one behind the other; and the slice of the text at
its span is read as the part, all places counted from the start of the slice. -/
theorem spans_of_parseExpr {text : String} {e : Expr} (h : parseExpr text = .ok e) {part : Expr}
    (hpart : part ∈ e.parts) :
    part.span.Within ⟨0, text.utf8ByteSize⟩ ∧
      (∀ child ∈ part.children, child.span.Within part.span) ∧
      (part.children.Pairwise fun child next => child.span.stop ≤ next.span.start) ∧
      ∃ e', parseExpr (String.Pos.Raw.extract text ⟨part.span.start⟩ ⟨part.span.stop⟩) = .ok e' ∧
        e'.moved (· + part.span.start) = part := by
  obtain ⟨tokens, hlex, hspells⟩ := exists_spells_of_parseExpr h
  have hordered := (ordered_of_lexFrom hlex).1
  obtain ⟨ws, hws, hpartSpells, hinTurn⟩ := hspells.partsPlaced part hpart
  have hwsOrdered := hordered.of_isInfix hws
  obtain ⟨hruns, hpairs⟩ := hinTurn.spans hwsOrdered
  obtain ⟨hwithin, hslice⟩ := exists_parseExpr_slice hlex hws hpartSpells hwsOrdered
  refine ⟨hwithin, fun child hchild => ?_, hpairs, hslice⟩
  obtain ⟨run, hrun, hcovers⟩ := hruns child hchild
  exact hwsOrdered.covers_within (hpartSpells.covers hwsOrdered) hrun hcovers

/-- An element of an array with a sign in front of it. -/
def negatedElement : Expr :=
  .unary ⟨5, 13⟩ .negate (.index ⟨6, 13⟩ (.name ⟨6, 8⟩ "xs") (.name ⟨10, 11⟩ "i"))

/-- Twice what a function makes of the element. -/
def twiceCalled : Expr :=
  .binary ⟨0, 18⟩ .multiply (.call ⟨0, 14⟩ "f" [.number ⟨2, 3⟩ "1", negatedElement] false)
    (.number ⟨17, 18⟩ "2")

/-- The element is read from the eight bytes that it takes, and its base and its position lie in
them. -/
theorem spans_of_parseExpr_negatedElement :
    parseExpr "f(1, -xs[ i ]) * 2" = .ok twiceCalled ∧ negatedElement ∈ twiceCalled.parts ∧
      negatedElement.span.Within ⟨0, 18⟩ ∧
      (∀ child ∈ negatedElement.children, child.span.Within negatedElement.span) ∧
      ∃ e', parseExpr "-xs[ i ]" = .ok e' ∧ e'.moved (· + 5) = negatedElement := by
  have hparse : parseExpr "f(1, -xs[ i ]) * 2" = .ok twiceCalled := by decide +kernel
  have hpart : negatedElement ∈ twiceCalled.parts := by
    simp [twiceCalled, Expr.parts, Expr.partsOfAll, negatedElement]
  have hcut : String.Pos.Raw.extract "f(1, -xs[ i ]) * 2" ⟨5⟩ ⟨13⟩ = "-xs[ i ]" := by decide
  obtain ⟨hwithin, hchildren, -, hslice⟩ := spans_of_parseExpr hparse hpart
  change ∃ e', parseExpr (String.Pos.Raw.extract "f(1, -xs[ i ]) * 2" ⟨5⟩ ⟨13⟩) = .ok e' ∧ _
    at hslice
  rw [hcut] at hslice
  exact ⟨hparse, hpart, hwithin, hchildren, hslice⟩

end BlockCode
