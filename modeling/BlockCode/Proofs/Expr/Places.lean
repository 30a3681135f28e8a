/- # Expressions without their places

Where in a text an expression was read is kept in its nodes and means nothing else. Tokens with the
same words derive from the same phrases, only that the places are those of the tokens. So an
expression is read from a part of a text as it is read from the part by itself.
-/

import BlockCode.Proofs.Expr.Apart
import BlockCode.Proofs.Expr.Parts

namespace BlockCode

namespace Expr

mutual

/-- The expression with no places. -/
def unplaced : Expr → Expr
  | .number _ text => .number default text
  | .string _ contents => .string default contents
  | .bool _ value => .bool default value
  | .name _ word => .name default word
  | .index _ base position => .index default base.unplaced position.unplaced
  | .call _ word args userDefined => .call default word (unplacedAll args) userDefined
  | .builtin _ function args => .builtin default function (unplacedAll args)
  | .unary _ op operand => .unary default op operand.unplaced
  | .binary _ op left right => .binary default op left.unplaced right.unplaced
  | .group _ inner => .group default inner.unplaced

/-- The expressions with no places. -/
def unplacedAll : List Expr → List Expr
  | [] => []
  | e :: rest => e.unplaced :: unplacedAll rest

end

theorem unplacedAll_eq_map (exprs : List Expr) : unplacedAll exprs = exprs.map unplaced := by
  induction exprs with
  | nil => rfl
  | cons e exprs ih => rw [unplacedAll, ih, List.map_cons]

/-- The value of a literal has no place. -/
theorem literalNumber?_unplaced : ∀ e : Expr, e.unplaced.literalNumber? = e.literalNumber?
  | .group _ inner => by
      rw [unplaced, literalNumber?, literalNumber?, literalNumber?_unplaced inner]
  | .unary _ .negate operand => by
      rw [unplaced, literalNumber?, literalNumber?, literalNumber?_unplaced operand]
  | .unary _ .not _ | .number .. | .string .. | .bool .. | .name .. | .index .. | .call ..
  | .builtin .. | .binary .. => rfl

/-- Nor does the name that an expression assigns to. -/
theorem assignableName?_unplaced : ∀ e : Expr, e.unplaced.assignableName? = e.assignableName?
  | .index _ base _ => by
      rw [unplaced, assignableName?, assignableName?, assignableName?_unplaced base]
  | .number .. | .string .. | .bool .. | .name .. | .call .. | .builtin .. | .unary .. | .binary ..
  | .group .. => rfl

mutual

/-- The parts of an expression without places are its parts without places. -/
theorem parts_unplaced : ∀ e : Expr, e.unplaced.parts = e.parts.map unplaced
  | .index _ base position => by
      rw [unplaced, parts, parts, List.map_cons, List.map_append, parts_unplaced base,
        parts_unplaced position, unplaced]
  | .call _ _ args _ => by
      rw [unplaced, parts, parts, List.map_cons, partsOfAll_unplacedAll args, unplaced]
  | .builtin _ _ args => by
      rw [unplaced, parts, parts, List.map_cons, partsOfAll_unplacedAll args, unplaced]
  | .unary _ _ operand => by
      rw [unplaced, parts, parts, List.map_cons, parts_unplaced operand, unplaced]
  | .binary _ _ left right => by
      rw [unplaced, parts, parts, List.map_cons, List.map_append, parts_unplaced left,
        parts_unplaced right, unplaced]
  | .group _ inner => by
      rw [unplaced, parts, parts, List.map_cons, parts_unplaced inner, unplaced]
  | .number .. | .string .. | .bool .. | .name .. => rfl

theorem partsOfAll_unplacedAll : ∀ exprs : List Expr,
    partsOfAll (unplacedAll exprs) = (partsOfAll exprs).map unplaced
  | [] => rfl
  | e :: exprs => by
      rw [unplacedAll, partsOfAll, partsOfAll, List.map_append, parts_unplaced e,
        partsOfAll_unplacedAll exprs]

end

end Expr

/-- Whether the names in an expression are free does not depend on places. -/
theorem checkNames_unplaced (e : Expr) : checkNames e.unplaced = checkNames e := by
  have hown : ∀ part : Expr, part.unplaced.ownName? = part.ownName? := by
    intro part
    cases part <;> rfl
  have hfind : e.unplaced.parts.findSome? (fun part => part.ownName?.bind reservedSegment?) =
      e.parts.findSome? fun part => part.ownName?.bind reservedSegment? := by
    rw [Expr.parts_unplaced, List.findSome?_map]
    exact congrArg (e.parts.findSome? ·) (funext fun part => by rw [Function.comp_apply, hown])
  rw [checkNames, hfind]
  rfl

/-- Nor does what a built-in admits. -/
theorem Builtin.Admits.of_unplaced {function : Builtin} {args args' : List Expr}
    (h : function.Admits args) (hargs : args'.map Expr.unplaced = args.map Expr.unplaced) :
    function.Admits args' := by
  have hlength := congrArg List.length hargs
  rw [List.length_map, List.length_map] at hlength
  refine ⟨hlength.trans h.1, ?_⟩
  rintro least' greatest' m n hrandom rfl hleast hgreatest
  obtain ⟨least, rest, rfl, hleast', hrest⟩ := List.map_eq_cons_iff.mp hargs.symm
  obtain ⟨greatest, _, rfl, hgreatest', hnil⟩ := List.map_eq_cons_iff.mp hrest
  obtain rfl := List.map_eq_nil_iff.mp hnil
  refine h.2 least greatest m n hrandom rfl ?_ ?_
  · rw [← Expr.literalNumber?_unplaced, hleast', Expr.literalNumber?_unplaced, hleast]
  · rw [← Expr.literalNumber?_unplaced, hgreatest', Expr.literalNumber?_unplaced, hgreatest]

/-- What a phrase becomes on other tokens: its own kind of phrase, with trees that differ in their
places only. -/
def Phrase.MovesTo : Phrase → List Token → Prop
  | .expr level e, ws => ∃ e', Derives (.expr level e') ws ∧ e'.unplaced = e.unplaced
  | .operators level left e, ws => ∀ left' : Expr, left'.unplaced = left.unplaced →
      ∃ e', Derives (.operators level left' e') ws ∧ e'.unplaced = e.unplaced
  | .positions base e, ws => ∀ base' : Expr, base'.unplaced = base.unplaced →
      ∃ e', Derives (.positions base' e') ws ∧ e'.unplaced = e.unplaced
  | .arguments args _, ws => ∃ args' stop, Derives (.arguments args' stop) ws ∧
      args'.map Expr.unplaced = args.map Expr.unplaced
  | .items args, ws => ∃ args', Derives (.items args') ws ∧
      args'.map Expr.unplaced = args.map Expr.unplaced

section Words

variable {tokens ws vs : List Token} {token : Token}

theorem exists_append_of_words (h : tokens.map Token.word = (ws ++ vs).map Token.word) :
    ∃ ws' vs', tokens = ws' ++ vs' ∧ ws'.map Token.word = ws.map Token.word ∧
      vs'.map Token.word = vs.map Token.word := by
  rw [List.map_append] at h
  exact List.map_eq_append_iff.mp h

theorem exists_cons_of_words (h : tokens.map Token.word = (token :: ws).map Token.word) :
    ∃ token' ws', tokens = token' :: ws' ∧ token'.kind = token.kind ∧ token'.text = token.text ∧
      ws'.map Token.word = ws.map Token.word := by
  rw [List.map_cons] at h
  obtain ⟨token', ws', rfl, hword, hws⟩ := List.map_eq_cons_iff.mp h
  obtain ⟨hkind, htext⟩ := Prod.mk.inj hword
  exact ⟨token', ws', rfl, hkind, htext, hws⟩

theorem exists_singleton_of_words (h : tokens.map Token.word = [token].map Token.word) :
    ∃ token', tokens = [token'] ∧ token'.kind = token.kind ∧ token'.text = token.text := by
  obtain ⟨token', ws', rfl, hkind, htext, hws⟩ := exists_cons_of_words h
  obtain rfl := List.map_eq_nil_iff.mp hws
  exact ⟨token', rfl, hkind, htext⟩

end Words

/-- Tokens with the same words derive from the same phrases, up to places. -/
theorem Derives.movesTo {phrase : Phrase} {ws : List Token} (h : Derives phrase ws)
    {ws' : List Token} (hwords : ws'.map Token.word = ws.map Token.word) : phrase.MovesTo ws' := by
  induction h generalizing ws' with
  | chain hlevel hfirst hrest ihfirst ihrest =>
      obtain ⟨front, behind, rfl, hfront, hbehind⟩ := exists_append_of_words hwords
      obtain ⟨first, hfirst, hsame⟩ := ihfirst hfront
      obtain ⟨e, he, hsame⟩ := ihrest hbehind first hsame
      exact ⟨e, .chain hlevel hfirst he, hsame⟩
  | noOperator =>
      obtain rfl := List.map_eq_nil_iff.mp hwords
      exact fun left hleft => ⟨left, .noOperator, hleft⟩
  | operator hlevel htoken hright hrest ihright ihrest =>
      obtain ⟨token, ws, rfl, hkind, -, hws⟩ := exists_cons_of_words hwords
      obtain ⟨front, behind, rfl, hfront, hbehind⟩ := exists_append_of_words hws
      obtain ⟨right, hright, hsame⟩ := ihright hfront
      intro left hleft
      obtain ⟨e, he, hsame⟩ := ihrest hbehind (.binary (left.span.merge right.span) _ left right)
        (by rw [Expr.unplaced, Expr.unplaced, hleft, hsame])
      exact ⟨e, .operator hlevel (hkind ▸ htoken) hright he, hsame⟩
  | negate htoken hoperand ih =>
      obtain ⟨token, ws, rfl, hkind, -, hws⟩ := exists_cons_of_words hwords
      obtain ⟨operand, hoperand, hsame⟩ := ih hws
      exact ⟨_, .negate (hkind ▸ htoken) hoperand, by rw [Expr.unplaced, Expr.unplaced, hsame]⟩
  | not htoken hoperand ih =>
      obtain ⟨token, ws, rfl, hkind, -, hws⟩ := exists_cons_of_words hwords
      obtain ⟨operand, hoperand, hsame⟩ := ih hws
      exact ⟨_, .not (hkind ▸ htoken) hoperand, by rw [Expr.unplaced, Expr.unplaced, hsame]⟩
  | unsigned _ ih =>
      obtain ⟨e, he, hsame⟩ := ih hwords
      exact ⟨e, .unsigned he, hsame⟩
  | raised hbase htoken hexponent ihbase ihexponent =>
      obtain ⟨front, behind, rfl, hfront, hbehind⟩ := exists_append_of_words hwords
      obtain ⟨token, vs, rfl, hkind, -, hvs⟩ := exists_cons_of_words hbehind
      obtain ⟨base, hbase, hsame⟩ := ihbase hfront
      obtain ⟨exponent, hexponent, hsame'⟩ := ihexponent hvs
      exact ⟨_, .raised hbase (hkind ▸ htoken) hexponent,
        by rw [Expr.unplaced, Expr.unplaced, hsame, hsame']⟩
  | unraised _ ih =>
      obtain ⟨e, he, hsame⟩ := ih hwords
      exact ⟨e, .unraised he, hsame⟩
  | number htoken =>
      obtain ⟨token, rfl, hkind, htext⟩ := exists_singleton_of_words hwords
      exact ⟨_, .number (hkind ▸ htoken), by rw [Expr.unplaced, Expr.unplaced, htext]⟩
  | string htoken =>
      obtain ⟨token, rfl, hkind, htext⟩ := exists_singleton_of_words hwords
      exact ⟨_, .string (hkind ▸ htoken), by rw [Expr.unplaced, Expr.unplaced, htext]⟩
  | trueWord htoken =>
      obtain ⟨token, rfl, hkind, -⟩ := exists_singleton_of_words hwords
      exact ⟨_, .trueWord (hkind ▸ htoken), rfl⟩
  | falseWord htoken =>
      obtain ⟨token, rfl, hkind, -⟩ := exists_singleton_of_words hwords
      exact ⟨_, .falseWord (hkind ▸ htoken), rfl⟩
  | group hopening hinner hclosing ih =>
      obtain ⟨opening, ws, rfl, hkind, -, hws⟩ := exists_cons_of_words hwords
      obtain ⟨front, behind, rfl, hfront, hbehind⟩ := exists_append_of_words hws
      obtain ⟨closing, rfl, hkind', -⟩ := exists_singleton_of_words hbehind
      obtain ⟨inner, hinner, hsame⟩ := ih hfront
      exact ⟨_, .group (hkind ▸ hopening) hinner (hkind' ▸ hclosing),
        by rw [Expr.unplaced, Expr.unplaced, hsame]⟩
  | userCall hmarker hname hargs ih =>
      obtain ⟨marker, ws, rfl, hkind, -, hws⟩ := exists_cons_of_words hwords
      obtain ⟨name, vs, rfl, hkind', htext, hvs⟩ := exists_cons_of_words hws
      obtain ⟨args, stop, hargs, hsame⟩ := ih hvs
      exact ⟨_, .userCall (hkind ▸ hmarker) (hkind' ▸ hname) hargs,
        by rw [Expr.unplaced, Expr.unplaced, Expr.unplacedAll_eq_map, hsame,
          Expr.unplacedAll_eq_map, htext]⟩
  | name htoken hrest ih =>
      obtain ⟨token, ws, rfl, hkind, htext, hws⟩ := exists_cons_of_words hwords
      obtain ⟨e, he, hsame⟩ := ih hws (.name token.span token.text)
        (by rw [Expr.unplaced, Expr.unplaced, htext])
      exact ⟨e, .name (hkind ▸ htoken) he, hsame⟩
  | call htoken hplain hargs hrest ihargs ihrest =>
      obtain ⟨token, ws, rfl, hkind, htext, hws⟩ := exists_cons_of_words hwords
      obtain ⟨front, behind, rfl, hfront, hbehind⟩ := exists_append_of_words hws
      obtain ⟨args, stop, hargs, hsame⟩ := ihargs hfront
      obtain ⟨e, he, hsame⟩ := ihrest hbehind (.call ⟨token.span.start, stop⟩ token.text args false)
        (by rw [Expr.unplaced, Expr.unplaced, Expr.unplacedAll_eq_map, hsame,
          Expr.unplacedAll_eq_map, htext])
      exact ⟨e, .call (hkind ▸ htoken) (htext ▸ hplain) hargs he, hsame⟩
  | builtin htoken hbuiltin hargs hadmits hrest ihargs ihrest =>
      obtain ⟨token, ws, rfl, hkind, htext, hws⟩ := exists_cons_of_words hwords
      obtain ⟨front, behind, rfl, hfront, hbehind⟩ := exists_append_of_words hws
      obtain ⟨args, stop, hargs, hsame⟩ := ihargs hfront
      obtain ⟨e, he, hsame'⟩ := ihrest hbehind (.builtin ⟨token.span.start, stop⟩ _ args)
        (by rw [Expr.unplaced, Expr.unplaced, Expr.unplacedAll_eq_map, hsame,
          Expr.unplacedAll_eq_map])
      exact ⟨e, .builtin (hkind ▸ htoken) (htext ▸ hbuiltin) hargs (hadmits.of_unplaced hsame) he,
        hsame'⟩
  | noPosition =>
      obtain rfl := List.map_eq_nil_iff.mp hwords
      exact fun base hbase => ⟨base, .noPosition, hbase⟩
  | position hopening hindex hclosing hrest ihindex ihrest =>
      obtain ⟨opening, ws, rfl, hkind, -, hws⟩ := exists_cons_of_words hwords
      obtain ⟨front, behind, rfl, hfront, hbehind⟩ := exists_append_of_words hws
      obtain ⟨closing, vs, rfl, hkind', -, hvs⟩ := exists_cons_of_words hbehind
      obtain ⟨index, hindex, hsame⟩ := ihindex hfront
      intro base hbase
      obtain ⟨e, he, hsame⟩ := ihrest hvs (.index ⟨base.span.start, closing.span.stop⟩ base index)
        (by rw [Expr.unplaced, Expr.unplaced, hbase, hsame])
      exact ⟨e, .position (hkind ▸ hopening) hindex (hkind' ▸ hclosing) he, hsame⟩
  | noArgument hopening hclosing =>
      obtain ⟨opening, ws, rfl, hkind, -, hws⟩ := exists_cons_of_words hwords
      obtain ⟨closing, rfl, hkind', -⟩ := exists_singleton_of_words hws
      exact ⟨[], _, .noArgument (hkind ▸ hopening) (hkind' ▸ hclosing), rfl⟩
  | arguments hopening hargs hclosing ih =>
      obtain ⟨opening, ws, rfl, hkind, -, hws⟩ := exists_cons_of_words hwords
      obtain ⟨front, behind, rfl, hfront, hbehind⟩ := exists_append_of_words hws
      obtain ⟨closing, rfl, hkind', -⟩ := exists_singleton_of_words hbehind
      obtain ⟨args, hargs, hsame⟩ := ih hfront
      exact ⟨args, _, .arguments (hkind ▸ hopening) hargs (hkind' ▸ hclosing), hsame⟩
  | lastItem he ih =>
      obtain ⟨e, he, hsame⟩ := ih hwords
      exact ⟨[e], .lastItem he, by rw [List.map_singleton, List.map_singleton, hsame]⟩
  | nextItem he hcomma hrest ihe ihrest =>
      obtain ⟨front, behind, rfl, hfront, hbehind⟩ := exists_append_of_words hwords
      obtain ⟨comma, vs, rfl, hkind, -, hvs⟩ := exists_cons_of_words hbehind
      obtain ⟨e, he, hsame⟩ := ihe hfront
      obtain ⟨args, hargs, hsame'⟩ := ihrest hvs
      exact ⟨e :: args, .nextItem he (hkind ▸ hcomma) hargs,
        by rw [List.map_cons, List.map_cons, hsame, hsame']⟩

end BlockCode
