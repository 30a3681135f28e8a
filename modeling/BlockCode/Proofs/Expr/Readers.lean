/- # What each reader of expressions does

A reader gives back the tokens it left together with the fact that they are fewer. Here each
reader is described without that fact: by one equivalence that says when it gives a value and
leaves certain tokens. The proofs about reading use these equivalences and open no reader.
-/

import BlockCode.Expr.Parser

namespace BlockCode

/-- The reader gives the value and leaves the tokens `rest`. -/
def Parsed.Reads {α : Type} {n : Nat} (r : Parsed α n) (a : α) (rest : List Token) : Prop :=
  ∃ h, r = .ok ⟨(a, rest), h⟩

namespace Parsed

variable {α β : Type} {n m : Nat}

/-- A reader that gives a value has taken at least one token of those it was promised. -/
theorem Reads.length_lt {r : Parsed α n} {a : α} {rest : List Token} (h : r.Reads a rest) :
    rest.length < n :=
  h.1

/-- A reader gives at most one value. -/
theorem Reads.unique {r : Parsed α n} {a b : α} {rest rest' : List Token}
    (h : r.Reads a rest) (h' : r.Reads b rest') : a = b ∧ rest = rest' := by
  obtain ⟨_, rfl⟩ := h
  obtain ⟨_, heq⟩ := h'
  cases heq
  exact ⟨rfl, rfl⟩

@[simp]
theorem reads_ok {p : { p : α × List Token // p.2.length < n }} {a : α} {rest : List Token} :
    Reads (.ok p : Parsed α n) a rest ↔ a = p.1.1 ∧ rest = p.1.2 := by
  obtain ⟨⟨b, left⟩, hlt⟩ := p
  constructor
  · rintro ⟨_, heq⟩
    cases heq
    exact ⟨rfl, rfl⟩
  · rintro ⟨rfl, rfl⟩
    exact ⟨hlt, rfl⟩

@[simp]
theorem not_reads_error {e : ExprError} {a : α} {rest : List Token} :
    ¬ Reads (.error e : Parsed α n) a rest := by
  rintro ⟨_, heq⟩
  cases heq

/-- Two readers one after the other: the second goes on where the first stopped. -/
theorem reads_bind {r : Parsed α n} {f : { p : α × List Token // p.2.length < n } → Parsed β m}
    {b : β} {rest : List Token} :
    Reads (r >>= f) b rest ↔
      ∃ a mid, ∃ h : r.Reads a mid, Reads (f ⟨(a, mid), h.length_lt⟩) b rest := by
  cases r with
  | error e =>
      simp only [bind, Except.bind, not_reads_error, false_iff]
      rintro ⟨_, _, h, _⟩
      exact h
  | ok p =>
      obtain ⟨⟨a, mid⟩, hlt⟩ := p
      simp only [bind, Except.bind]
      constructor
      · intro h
        exact ⟨a, mid, ⟨hlt, rfl⟩, h⟩
      · rintro ⟨_, _, ⟨_, heq⟩, h⟩
        cases heq
        exact h

/-- A check in front of a reader has to pass. -/
theorem reads_check {r : Except ExprError Unit} {f : Unit → Parsed α n} {a : α}
    {rest : List Token} :
    Reads (r >>= f) a rest ↔ r = .ok () ∧ Reads (f ()) a rest := by
  cases r with
  | error e => simp [bind, Except.bind]
  | ok u => simp [bind, Except.bind]

end Parsed

open Parsed

theorem reads_expectToken {kind : TokenKind} {tokens rest : List Token} {token : Token} :
    (expectToken kind tokens).Reads token rest ↔ tokens = token :: rest ∧ token.kind = kind := by
  cases tokens with
  | nil => simp [expectToken]
  | cons first tokens =>
      rw [expectToken]
      split
      · next hkind =>
        simp only [reads_ok, List.cons.injEq]
        constructor
        · rintro ⟨rfl, rfl⟩
          exact ⟨⟨rfl, rfl⟩, hkind⟩
        · rintro ⟨⟨rfl, rfl⟩, _⟩
          exact ⟨rfl, rfl⟩
      · next hkind =>
        simp only [not_reads_error, List.cons.injEq, false_iff]
        rintro ⟨⟨rfl, rfl⟩, h⟩
        exact hkind h

theorem reads_parseAbove {bound : Precedence} {tokens rest : List Token} {e : Expr} :
    (parseAbove bound tokens).Reads e rest ↔
      ∃ left mid, (parseOperand tokens).Reads left mid ∧
        (parseOperators bound left mid).Reads e rest := by
  rw [parseAbove]
  simp only [reads_bind, pure, Except.pure, reads_ok, exists_prop]
  simp

theorem reads_parseOperators_nil {bound : Precedence} {left e : Expr} {rest : List Token} :
    (parseOperators bound left []).Reads e rest ↔ e = left ∧ rest = [] := by
  rw [parseOperators]
  simp only [pure, Except.pure, reads_ok]

theorem reads_parseOperators_cons {bound : Precedence} {left e : Expr} {token : Token}
    {tokens rest : List Token} :
    (parseOperators bound left (token :: tokens)).Reads e rest ↔
      match token.kind.binaryOp? with
      | none => e = left ∧ rest = token :: tokens
      | some op =>
        if op.precedence ≤ bound then e = left ∧ rest = token :: tokens
        else
          ∃ right mid, (parseAbove op.rightBound tokens).Reads right mid ∧
            (parseOperators bound (.binary (left.span.merge right.span) op left right) mid).Reads
              e rest := by
  rw [parseOperators]
  cases token.kind.binaryOp? with
  | none => simp only [pure, Except.pure, reads_ok]
  | some op =>
      dsimp only
      split
      · simp only [pure, Except.pure, reads_ok]
      · simp only [reads_bind, pure, Except.pure, reads_ok, exists_prop]
        simp

theorem not_reads_parseOperand_nil {e : Expr} {rest : List Token} :
    ¬ (parseOperand []).Reads e rest := by
  rw [parseOperand]
  exact not_reads_error

theorem reads_parseOperand_cons {token : Token} {tokens rest : List Token} {e : Expr} :
    (parseOperand (token :: tokens)).Reads e rest ↔
      match token.kind with
      | .number => e = .number token.span token.text ∧ rest = tokens
      | .string => e = .string token.span (literalContents token.text) ∧ rest = tokens
      | .trueWord => e = .bool token.span true ∧ rest = tokens
      | .falseWord => e = .bool token.span false ∧ rest = tokens
      | .name => (parseNamed token.text token.span tokens).Reads e rest
      | .userMarker =>
        ∃ name args stop, ∃ mid, tokens = name :: mid ∧ name.kind = .name ∧
          (parseArguments mid).Reads (args, stop) rest ∧
          e = .call ⟨token.span.start, stop⟩ name.text args true
      | .leftParen =>
        ∃ inner closing, (parseAbove .lowest tokens).Reads inner (closing :: rest) ∧
          closing.kind = .rightParen ∧
          e = .group ⟨token.span.start, closing.span.stop⟩ inner
      | .minus =>
        ∃ operand, (parseAbove .unary tokens).Reads operand rest ∧
          e = .unary (token.span.merge operand.span) .negate operand
      | .not =>
        ∃ operand, (parseAbove .unary tokens).Reads operand rest ∧
          e = .unary (token.span.merge operand.span) .not operand
      | _ => False := by
  rw [parseOperand]
  cases token.kind <;>
    simp only [reads_bind, pure, Except.pure, reads_ok, throw, throwThe, MonadExceptOf.throw,
      not_reads_error, exists_prop, reads_expectToken, Prod.exists]
  case name | minus | not => simp
  case userMarker =>
    constructor
    · rintro ⟨name, mid, ⟨rfl, hname⟩, args, stop, rest, hargs, rfl, rfl⟩
      exact ⟨name, args, stop, mid, rfl, hname, hargs, rfl⟩
    · rintro ⟨name, args, stop, mid, rfl, hname, hargs, rfl⟩
      exact ⟨name, mid, ⟨rfl, hname⟩, args, stop, rest, hargs, rfl, rfl⟩
  case leftParen =>
    constructor
    · rintro ⟨inner, _, hinner, closing, rest, ⟨rfl, hclosing⟩, rfl, rfl⟩
      exact ⟨inner, closing, hinner, hclosing, rfl⟩
    · rintro ⟨inner, closing, hinner, hclosing, rfl⟩
      exact ⟨inner, _, hinner, closing, rest, ⟨rfl, hclosing⟩, rfl, rfl⟩

theorem reads_parsePositions_nil {base e : Expr} {rest : List Token} :
    (parsePositions base []).Reads e rest ↔ e = base ∧ rest = [] := by
  rw [parsePositions]
  simp only [pure, Except.pure, reads_ok]

theorem reads_parsePositions_cons {base e : Expr} {token : Token} {tokens rest : List Token} :
    (parsePositions base (token :: tokens)).Reads e rest ↔
      if token.kind = .leftBracket then
        ∃ position closing mid, (parseAbove .lowest tokens).Reads position (closing :: mid) ∧
          closing.kind = .rightBracket ∧
          (parsePositions (.index ⟨base.span.start, closing.span.stop⟩ base position) mid).Reads
            e rest
      else e = base ∧ rest = token :: tokens := by
  rw [parsePositions]
  split
  · simp only [reads_bind, pure, Except.pure, reads_ok, exists_prop, reads_expectToken]
    constructor
    · rintro ⟨position, _, hposition, closing, mid, ⟨rfl, hclosing⟩, _, _, h, rfl, rfl⟩
      exact ⟨position, closing, mid, hposition, hclosing, h⟩
    · rintro ⟨position, closing, mid, hposition, hclosing, h⟩
      exact ⟨position, _, hposition, closing, mid, ⟨rfl, hclosing⟩, _, _, h, rfl, rfl⟩
  · simp only [pure, Except.pure, reads_ok]

theorem reads_parseNamed_nil {name : String} {span : Span} {e : Expr} {rest : List Token} :
    (parseNamed name span []).Reads e rest ↔ e = .name span name ∧ rest = [] := by
  rw [parseNamed]
  simp only [pure, Except.pure, reads_ok]

theorem reads_parseNamed_cons {name : String} {span : Span} {e : Expr} {token : Token}
    {tokens rest : List Token} :
    (parseNamed name span (token :: tokens)).Reads e rest ↔
      if token.kind = .leftParen then
        ∃ args stop mid, (parseArguments (token :: tokens)).Reads (args, stop) mid ∧
          match Builtin.ofName? name with
          | some function =>
            checkBuiltin function args = .ok () ∧
              (parsePositions (.builtin ⟨span.start, stop⟩ function args) mid).Reads e rest
          | none => (parsePositions (.call ⟨span.start, stop⟩ name args false) mid).Reads e rest
      else (parsePositions (.name span name) (token :: tokens)).Reads e rest := by
  rw [parseNamed]
  split
  · simp only [reads_bind, Prod.exists]
    refine exists_congr fun args => exists_congr fun stop => exists_congr fun mid => ?_
    cases Builtin.ofName? name with
    | none => simp [reads_bind, pure, Except.pure]
    | some function =>
        simp only [reads_bind, reads_check, pure, Except.pure, reads_ok, exists_prop]
        simp
  · rfl

theorem reads_parseArguments {tokens rest : List Token} {args : List Expr} {stop : Nat} :
    (parseArguments tokens).Reads (args, stop) rest ↔
      ∃ opening token mid, tokens = opening :: token :: mid ∧ opening.kind = .leftParen ∧
        if token.kind = .rightParen then args = [] ∧ stop = token.span.stop ∧ rest = mid
        else
          ∃ closing, (parseItems (token :: mid)).Reads args (closing :: rest) ∧
            closing.kind = .rightParen ∧ stop = closing.span.stop := by
  rw [parseArguments]
  simp only [reads_bind, reads_expectToken]
  constructor
  · rintro ⟨opening, mid, ⟨rfl, hopening⟩, h⟩
    cases mid with
    | nil => exact absurd h not_reads_error
    | cons token mid =>
        refine ⟨opening, token, mid, rfl, hopening, ?_⟩
        dsimp only at h
        split at h
        · next hclose =>
          simp only [pure, Except.pure, reads_ok, Prod.mk.injEq] at h
          rw [if_pos hclose]
          exact ⟨h.1.1, h.1.2, h.2⟩
        · next hclose =>
          simp only [reads_bind, reads_expectToken, pure, Except.pure, reads_ok,
            Prod.mk.injEq] at h
          obtain ⟨_, _, hitems, closing, _, ⟨rfl, hclosing⟩, ⟨rfl, rfl⟩, rfl⟩ := h
          rw [if_neg hclose]
          exact ⟨closing, hitems, hclosing, rfl⟩
  · rintro ⟨opening, token, mid, rfl, hopening, h⟩
    refine ⟨opening, token :: mid, ⟨rfl, hopening⟩, ?_⟩
    dsimp only
    split at h
    · next hclose =>
      rw [if_pos hclose]
      simp only [pure, Except.pure, reads_ok, Prod.mk.injEq]
      exact ⟨⟨h.1, h.2.1⟩, h.2.2⟩
    · next hclose =>
      obtain ⟨closing, hitems, hclosing, rfl⟩ := h
      rw [if_neg hclose]
      simp only [reads_bind, reads_expectToken, pure, Except.pure, reads_ok, Prod.mk.injEq]
      exact ⟨_, _, hitems, closing, _, ⟨rfl, hclosing⟩, ⟨rfl, rfl⟩, rfl⟩

theorem reads_parseItems {tokens rest : List Token} {args : List Expr} :
    (parseItems tokens).Reads args rest ↔
      ∃ first mid, (parseAbove .lowest tokens).Reads first mid ∧
        match mid with
        | [] => args = [first] ∧ rest = []
        | token :: tokens =>
          if token.kind = .comma then
            ∃ items, (parseItems tokens).Reads items rest ∧ args = first :: items
          else args = [first] ∧ rest = token :: tokens := by
  rw [parseItems]
  simp only [reads_bind]
  refine exists_congr fun first => exists_congr fun mid => ?_
  cases mid with
  | nil => simp only [pure, Except.pure, reads_ok, exists_prop]
  | cons token mid =>
      dsimp only
      split
      · simp only [reads_bind, pure, Except.pure, reads_ok, exists_prop]
        refine and_congr_right fun _ => exists_congr fun items => ?_
        simp
      · simp only [pure, Except.pure, reads_ok, exists_prop]

end BlockCode
