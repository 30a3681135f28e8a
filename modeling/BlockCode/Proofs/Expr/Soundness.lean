/- # What is read follows the grammar

The reader of expressions climbs by binding strength and knows no nonterminals. Here it is shown
that whatever a reader took derives from a phrase of the layered grammar, with the tree that the
reader gave, and that an operator that follows does not bind tightly enough to belong to it.
-/

import BlockCode.Proofs.Expr.Grammar
import BlockCode.Proofs.Expr.Readers

namespace BlockCode

/-- A built-in is refused exactly when its arguments do not satisfy what it asks for. -/
theorem checkBuiltin_eq_ok_iff {function : Builtin} {args : List Expr} :
    checkBuiltin function args = .ok () ↔ function.Admits args := by
  unfold checkBuiltin Builtin.Admits
  by_cases hcount : args.length = function.arity
  · rw [if_neg (not_not_intro hcount), and_iff_right hcount]
    split
    · next least greatest =>
      constructor
      · intro h l g m n _ hargs hl hg
        cases hargs
        rw [hl, hg] at h
        by_cases hlt : n.lt m = true
        · simp [hlt] at h
        · simpa using hlt
      · intro h
        split
        · next m n hm hn => simp [h _ _ m n rfl rfl hm hn]
        · rfl
    · next hnot =>
      simp only [true_iff]
      rintro least greatest m n rfl rfl
      exact absurd rfl (hnot least greatest rfl)
  · rw [if_pos hcount]
    simp [hcount]

namespace Precedence

/-- The loosest level of an expression whose operators all bind tighter than the bound. -/
def above : Precedence → Precedence
  | .lowest => .or
  | .or => .and
  | .and => .comparison
  | .comparison => .additive
  | .additive => .multiplicative
  | .multiplicative | .unary => .unary
  | .power | .primary => .primary

theorem above_ne_lowest (bound : Precedence) : bound.above ≠ .lowest := by
  cases bound <;> simp [above]

theorem above_le_unary {bound : Precedence} (h : bound ≤ .unary) : bound.above ≤ .unary := by
  revert h
  cases bound <;> decide

theorem above_le_of_lt {bound level : Precedence} (h : bound < level) (hpower : level ≠ .power) :
    bound.above ≤ level := by
  revert h hpower
  cases bound <;> cases level <;> decide

theorem lt_of_above_le {bound level operand : Precedence} (h : bound.above ≤ level)
    (hlevel : level.operands? = some operand) : bound < level := by
  revert h
  cases level <;> cases hlevel <;> cases bound <;> decide

end Precedence

/-- An operator token is a power or belongs to exactly the level on which it binds. -/
theorem operator_of_binaryOp? {kind : TokenKind} {op : BinaryOp} (h : kind.binaryOp? = some op) :
    (kind = .power ∧ op = .power) ∨
      (op.precedence.operands? = some op.precedence.above ∧
        op.precedence.operator? kind = some op ∧ op.rightBound = op.precedence) := by
  cases kind <;> cases h <;> decide

theorem binaryOp?_of_operator? {level operand : Precedence} {kind : TokenKind} {op : BinaryOp}
    (hlevel : level.operands? = some operand) (h : level.operator? kind = some op) :
    kind.binaryOp? = some op ∧ op.precedence = level ∧ op.rightBound = level ∧
      level.above = operand := by
  cases level <;> cases hlevel <;> cases kind <;> cases h <;> decide

/-- What stands in front of the tokens was read to its end, as far as operators go: none that
binds tighter than the level follows. -/
def Stops (level : Precedence) (tokens : List Token) : Prop :=
  ∀ token ∈ tokens.head?, ∀ op, token.kind.binaryOp? = some op → op.precedence ≤ level

theorem stops_nil {level : Precedence} : Stops level [] := by
  simp [Stops]

theorem stops_cons {level : Precedence} {token : Token} {tokens : List Token} :
    Stops level (token :: tokens) ↔
      ∀ op, token.kind.binaryOp? = some op → op.precedence ≤ level := by
  simp [Stops]

theorem Stops.mono {level looser : Precedence} {tokens : List Token} (h : Stops looser tokens)
    (hle : looser ≤ level) : Stops level tokens :=
  fun token htoken op hop => Nat.le_trans (h token htoken op hop) hle

mutual

theorem derives_of_reads_parseAbove {bound : Precedence} {tokens rest : List Token} {e : Expr}
    (hbound : bound ≤ .unary) (h : (parseAbove bound tokens).Reads e rest) :
    ∃ ws, tokens = ws ++ rest ∧ Derives (.expr bound.above e) ws ∧ Stops bound rest := by
  obtain ⟨left, mid, hleft, hops⟩ := reads_parseAbove.mp h
  have hlt := hleft.length_lt
  obtain ⟨level, ws, htokens, hlevel, hpower, hderives, hstops⟩ :=
    derives_of_reads_parseOperand hleft
  have habove : bound.above ≤ level := Nat.le_trans (Precedence.above_le_unary hbound) hlevel
  obtain ⟨vs, hmid, he, hstops⟩ :=
    derives_of_reads_parseOperators hbound hderives habove hpower hstops hops
  exact ⟨ws ++ vs, by simp [htokens, hmid], he, hstops⟩
termination_by 3 * tokens.length + 2
decreasing_by all_goals omega

/-- The invariant of the loop over operators: what has been read so far derives from a level,
and the next operator binds no tighter than that level. -/
theorem derives_of_reads_parseOperators {bound level : Precedence} {left e : Expr}
    {ws tokens rest : List Token} (hbound : bound ≤ .unary)
    (hleft : Derives (.expr level left) ws) (hlevel : bound.above ≤ level)
    (hpower : level ≠ .power) (hstops : Stops level tokens)
    (h : (parseOperators bound left tokens).Reads e rest) :
    ∃ vs, tokens = vs ++ rest ∧ Derives (.expr bound.above e) (ws ++ vs) ∧ Stops bound rest := by
  have hdone : Derives (.expr bound.above left) (ws ++ []) := by
    simpa using hleft.of_le hlevel bound.above_ne_lowest
  cases hcase : tokens with
  | nil =>
      obtain ⟨rfl, rfl⟩ := reads_parseOperators_nil.mp (hcase ▸ h)
      exact ⟨[], rfl, hdone, stops_nil⟩
  | cons token tail =>
      rw [hcase, reads_parseOperators_cons] at h
      split at h
      · next hop =>
        obtain ⟨rfl, rfl⟩ := h
        exact ⟨[], rfl, hdone, stops_cons.mpr (by simp [hop])⟩
      · next op hop =>
        split at h
        · next hle =>
          obtain ⟨rfl, rfl⟩ := h
          refine ⟨[], rfl, hdone, stops_cons.mpr fun op' hop' => ?_⟩
          cases hop.symm.trans hop'
          exact hle
        · next hlt =>
          obtain ⟨right, mid, hright, hrest⟩ := h
          have hle : op.precedence ≤ level := stops_cons.mp (hcase ▸ hstops) op hop
          have hlt_mid := hright.length_lt
          rcases operator_of_binaryOp? hop with ⟨hkind, rfl⟩ | ⟨hoperands, hoperator, hright'⟩
          · -- Nothing binds tighter than a power but what is primary.
            obtain rfl : level = .primary := by
              revert hle hpower
              cases level <;> decide
            obtain ⟨vs, htokens, hexponent, hstops⟩ :=
              derives_of_reads_parseAbove (Nat.le_refl _) hright
            obtain ⟨us, hmid, he, hstops⟩ := derives_of_reads_parseOperators hbound
              (.unsigned (.raised hleft hkind hexponent)) (Precedence.above_le_unary hbound)
              (by decide) hstops hrest
            exact ⟨token :: (vs ++ us), by simp [htokens, hmid], by simpa using he, hstops⟩
          · rw [hright'] at hright
            have hlt : bound < op.precedence := Nat.lt_of_not_le hlt
            have hop_ne : op.precedence ≠ .power := by
              intro heq
              rw [heq] at hoperands
              cases hoperands
            have hop_le : op.precedence ≤ .unary := by
              revert hoperands
              cases op <;> decide
            obtain ⟨vs, htokens, hoperand, hstops⟩ :=
              derives_of_reads_parseAbove hop_le hright
            have hne : op.precedence ≠ .lowest := by
              intro heq
              rw [heq] at hoperands
              cases hoperands
            obtain ⟨us, hmid, he, hstops⟩ := derives_of_reads_parseOperators hbound
              ((hleft.of_le hle hne).chain_snoc hoperands hoperator hoperand)
              (Precedence.above_le_of_lt hlt hop_ne) hop_ne hstops hrest
            exact ⟨token :: (vs ++ us), by simp [htokens, hmid], by simpa using he, hstops⟩
termination_by 3 * tokens.length
decreasing_by all_goals simp only [hcase, List.length_cons]; omega

theorem derives_of_reads_parseOperand {tokens rest : List Token} {e : Expr}
    (h : (parseOperand tokens).Reads e rest) :
    ∃ level ws, tokens = ws ++ rest ∧ .unary ≤ level ∧ level ≠ .power ∧
      Derives (.expr level e) ws ∧ Stops level rest := by
  have primary {tokens : List Token} (ws : List Token) (htokens : tokens = ws ++ rest)
      (hderives : Derives (.expr .primary e) ws) :
      ∃ level ws, tokens = ws ++ rest ∧ .unary ≤ level ∧ level ≠ .power ∧
        Derives (.expr level e) ws ∧ Stops level rest := by
    refine ⟨.primary, ws, htokens, by decide, by decide, hderives, ?_⟩
    intro token _ op _
    cases op <;> decide
  cases hcase : tokens with
  | nil => exact absurd (hcase ▸ h) not_reads_parseOperand_nil
  | cons token tail =>
      rw [hcase, reads_parseOperand_cons] at h
      split at h
      · next hkind =>
        obtain ⟨rfl, rfl⟩ := h
        exact primary [token] rfl (.number hkind)
      · next hkind =>
        obtain ⟨rfl, rfl⟩ := h
        exact primary [token] rfl (.string hkind)
      · next hkind =>
        obtain ⟨rfl, rfl⟩ := h
        exact primary [token] rfl (.trueWord hkind)
      · next hkind =>
        obtain ⟨rfl, rfl⟩ := h
        exact primary [token] rfl (.falseWord hkind)
      · next hkind =>
        obtain ⟨ws, rfl, hderives⟩ := derives_of_reads_parseNamed hkind h
        exact primary (token :: ws) rfl hderives
      · next hkind =>
        obtain ⟨name, args, stop, mid, htail, hname, hargs, rfl⟩ := h
        have hlength : tail.length = mid.length + 1 := by rw [htail, List.length_cons]
        obtain ⟨ws, hmid, hderives⟩ := derives_of_reads_parseArguments hargs
        exact primary (token :: name :: ws) (by simp [htail, hmid])
          (.userCall hkind hname hderives)
      · next hkind =>
        obtain ⟨inner, closing, hinner, hclosing, rfl⟩ := h
        obtain ⟨ws, rfl, hderives, _⟩ := derives_of_reads_parseAbove (by decide) hinner
        exact primary (token :: (ws ++ [closing])) (by simp)
          (.group hkind hderives hclosing)
      · next hkind =>
        obtain ⟨operand, hoperand, rfl⟩ := h
        obtain ⟨ws, rfl, hderives, hstops⟩ := derives_of_reads_parseAbove (by decide) hoperand
        exact ⟨.unary, token :: ws, rfl, by decide, by decide, .negate hkind hderives, hstops⟩
      · next hkind =>
        obtain ⟨operand, hoperand, rfl⟩ := h
        obtain ⟨ws, rfl, hderives, hstops⟩ := derives_of_reads_parseAbove (by decide) hoperand
        exact ⟨.unary, token :: ws, rfl, by decide, by decide, .not hkind hderives, hstops⟩
      · exact h.elim
termination_by 3 * tokens.length + 1
decreasing_by all_goals simp only [hcase, List.length_cons]; omega

theorem derives_of_reads_parseNamed {token : Token} {tokens rest : List Token} {e : Expr}
    (hkind : token.kind = .name) (h : (parseNamed token.text token.span tokens).Reads e rest) :
    ∃ ws, tokens = ws ++ rest ∧ Derives (.expr .primary e) (token :: ws) := by
  have plain (h : (parsePositions (.name token.span token.text) tokens).Reads e rest) :
      ∃ ws, tokens = ws ++ rest ∧ Derives (.expr .primary e) (token :: ws) := by
    obtain ⟨ws, rfl, hderives⟩ := derives_of_reads_parsePositions h
    exact ⟨ws, rfl, .name hkind hderives⟩
  cases hcase : tokens with
  | nil =>
      rw [← hcase]
      refine plain ?_
      rw [hcase, reads_parsePositions_nil]
      exact reads_parseNamed_nil.mp (hcase ▸ h)
  | cons opening tail =>
      rw [hcase, reads_parseNamed_cons] at h
      split at h
      · obtain ⟨args, stop, mid, hargs, h⟩ := h
        rw [← hcase] at hargs
        have hlt := hargs.length_lt
        obtain ⟨ws, hws, hderived⟩ := derives_of_reads_parseArguments hargs
        split at h
        · next function hfunction =>
          obtain ⟨hcheck, h⟩ := h
          obtain ⟨vs, hvs, hderives⟩ := derives_of_reads_parsePositions h
          exact ⟨ws ++ vs, by simp [← hcase, hws, hvs],
            .builtin hkind hfunction hderived (checkBuiltin_eq_ok_iff.mp hcheck) hderives⟩
        · next hfunction =>
          obtain ⟨vs, hvs, hderives⟩ := derives_of_reads_parsePositions h
          exact ⟨ws ++ vs, by simp [← hcase, hws, hvs], .call hkind hfunction hderived hderives⟩
      · rw [← hcase] at h ⊢
        exact plain h
termination_by 3 * tokens.length + 2
decreasing_by all_goals omega

theorem derives_of_reads_parsePositions {base e : Expr} {tokens rest : List Token}
    (h : (parsePositions base tokens).Reads e rest) :
    ∃ ws, tokens = ws ++ rest ∧ Derives (.positions base e) ws := by
  cases hcase : tokens with
  | nil =>
      obtain ⟨rfl, rfl⟩ := reads_parsePositions_nil.mp (hcase ▸ h)
      exact ⟨[], rfl, .noPosition⟩
  | cons opening tail =>
      rw [hcase, reads_parsePositions_cons] at h
      split at h
      · next hopening =>
        obtain ⟨position, closing, mid, hposition, hclosing, h⟩ := h
        have hlt := hposition.length_lt
        obtain ⟨ws, htokens, hinner, _⟩ := derives_of_reads_parseAbove (by decide) hposition
        obtain ⟨vs, hmid, hderives⟩ := derives_of_reads_parsePositions h
        exact ⟨opening :: (ws ++ closing :: vs), by simp [htokens, hmid],
          .position hopening hinner hclosing hderives⟩
      · obtain ⟨rfl, rfl⟩ := h
        exact ⟨[], rfl, .noPosition⟩
termination_by 3 * tokens.length
decreasing_by all_goals simp only [hcase, List.length_cons] at hlt ⊢; omega

theorem derives_of_reads_parseArguments {tokens rest : List Token} {args : List Expr}
    {stop : Nat} (h : (parseArguments tokens).Reads (args, stop) rest) :
    ∃ ws, tokens = ws ++ rest ∧ Derives (.arguments args stop) ws := by
  obtain ⟨opening, token, mid, htokens, hopening, h⟩ := reads_parseArguments.mp h
  have hlength : tokens.length = (opening :: token :: mid).length := by rw [htokens]
  split at h
  · next hclosing =>
    obtain ⟨rfl, rfl, rfl⟩ := h
    exact ⟨[opening, token], htokens, .noArgument hopening hclosing⟩
  · obtain ⟨closing, hitems, hclosing, rfl⟩ := h
    obtain ⟨ws, hws, hderives⟩ := derives_of_reads_parseItems hitems
    exact ⟨opening :: (ws ++ [closing]), by simp [htokens, hws],
      .arguments hopening hderives hclosing⟩
termination_by 3 * tokens.length + 1
decreasing_by all_goals simp only [List.length_cons] at hlength ⊢; omega

theorem derives_of_reads_parseItems {tokens rest : List Token} {args : List Expr}
    (h : (parseItems tokens).Reads args rest) :
    ∃ ws, tokens = ws ++ rest ∧ Derives (.items args) ws := by
  obtain ⟨first, mid, hfirst, hmore⟩ := reads_parseItems.mp h
  have hlt := hfirst.length_lt
  obtain ⟨ws, htokens, hitem, _⟩ := derives_of_reads_parseAbove (by decide) hfirst
  cases mid with
  | nil =>
      obtain ⟨rfl, rfl⟩ := hmore
      exact ⟨ws, htokens, .lastItem hitem⟩
  | cons token mid =>
      dsimp only at hmore
      split at hmore
      · next hcomma =>
        obtain ⟨items, hitems, rfl⟩ := hmore
        obtain ⟨vs, hmid, hderives⟩ := derives_of_reads_parseItems hitems
        exact ⟨ws ++ token :: vs, by simp [htokens, hmid], .nextItem hitem hcomma hderives⟩
      · obtain ⟨rfl, rfl⟩ := hmore
        exact ⟨ws, htokens, .lastItem hitem⟩
termination_by 3 * tokens.length + 3
decreasing_by all_goals simp only [List.length_cons] at *; omega

end

end BlockCode
