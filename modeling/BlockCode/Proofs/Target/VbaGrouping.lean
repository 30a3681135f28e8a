/- # Grouping by pending operators

What the reader of VBA makes of a piece of an expression depends on the operators that are pending
before it, so a piece is read as a function of them. An expression is put together from its pieces
in the same way whatever the pieces are.

Printed expressions have parentheses by the levels of this library, while VBA groups by its own
strengths. For all but two arrangements of operators the groupings agree. A power whose exponent is
a power is grouped from the left in VBA, and an operation on the left of an operator that binds
more tightly in VBA loses its right operand to it. An expression without these two is read as it
is meant, and one with either of them is not: the oldest pending operator has its left operand for
good, and it is the wrong one as soon as it has more leaves than it should.
-/

import BlockCode.Proofs.Target.Fitting
import BlockCode.Proofs.Target.VbaReader

namespace BlockCode.VbaReading

/-- The strength of what no operator can pull apart. -/
def unitStrength : Nat := 12

/-- How many operands stand between the operators of a tree. -/
def Tree.leaves : Tree → Nat
  | .unary _ operand => operand.leaves
  | .binary _ left right => left.leaves + right.leaves
  | _ => 1

theorem Tree.leaves_pos : ∀ tree : Tree, 0 < tree.leaves
  | .unary _ operand => operand.leaves_pos
  | .binary _ left _ => Nat.add_pos_left left.leaves_pos _
  | .number _ | .string _ | .bool _ | .name _ | .apply .. => Nat.one_pos

/-! ## Pending operators -/

/-- How many leaves a pending operator has on its left. -/
def Pending.weight : Pending → Nat
  | .unary _ => 0
  | .binary _ left => left.leaves

/-- How many leaves the pending operators have on their left together. -/
def weight : List Pending → Nat
  | [] => 0
  | p :: pending => p.weight + weight pending

theorem weight_concat (pending : List Pending) (p : Pending) :
    weight (pending ++ [p]) = weight pending + p.weight := by
  induction pending with
  | nil => exact Nat.add_comm ..
  | cons first pending ih => rw [List.cons_append, weight, weight, ih, Nat.add_assoc]

theorem Pending.leaves_around (p : Pending) (operand : Tree) :
    (p.around operand).leaves = p.weight + operand.leaves := by
  cases p with
  | unary op => rw [around, Tree.leaves, weight, Nat.zero_add]
  | binary op left => rw [around, Tree.leaves, weight]

/-- The last operator takes what the others have made of the operand. -/
theorem takeOverAll_concat (pending : List Pending) (p : Pending) (operand : Tree) :
    takeOverAll (pending ++ [p]) operand = p.around (takeOverAll pending operand) :=
  List.foldl_append ..

theorem leaves_takeOverAll (pending : List Pending) (operand : Tree) :
    (takeOverAll pending operand).leaves = weight pending + operand.leaves := by
  induction pending generalizing operand with
  | nil => exact (Nat.zero_add _).symm
  | cons p pending ih =>
      change (takeOverAll pending (p.around operand)).leaves = _
      rw [ih, p.leaves_around, weight]
      omega

theorem leaves_takeOver (strength : Nat) (pending : List Pending) (operand : Tree) :
    (takeOver strength pending operand).1.leaves + weight (takeOver strength pending operand).2 =
      weight pending + operand.leaves := by
  induction pending generalizing operand with
  | nil => exact Nat.add_comm ..
  | cons p pending ih =>
      rw [takeOver]
      split
      · rw [ih, p.leaves_around, weight]
        omega
      · exact Nat.add_comm ..

/-- Pending operators that bind at least as tightly all take the operand, up to one that does
not. -/
theorem takeOver_append {strength : Nat} {front pending : List Pending} {operand : Tree}
    (hfront : ∀ p ∈ front, strength ≤ p.strength)
    (hpending : ∀ p ∈ pending.head?, p.strength < strength) :
    takeOver strength (front ++ pending) operand = (takeOverAll front operand, pending) := by
  induction front generalizing operand with
  | nil =>
      cases pending with
      | nil => rfl
      | cons p pending =>
          rw [List.nil_append, takeOver, if_neg (Nat.not_le_of_lt (hpending p rfl))]
          rfl
  | cons p front ih =>
      rw [List.forall_mem_cons] at hfront
      rw [List.cons_append, takeOver, if_pos hfront.1, ih hfront.2]
      rfl

/-- The oldest pending operator changes nothing unless all of them take the operand. -/
theorem takeOver_concat (strength : Nat) (pending : List Pending) (last : Pending)
    (operand : Tree) :
    takeOver strength (pending ++ [last]) operand =
        ((takeOver strength pending operand).1,
          (takeOver strength pending operand).2 ++ [last]) ∨
      (takeOver strength (pending ++ [last]) operand).2 = [] := by
  induction pending generalizing operand with
  | nil =>
      by_cases hle : strength ≤ last.strength
      · rw [List.nil_append, takeOver.eq_2, if_pos hle]
        exact .inr rfl
      · exact .inl (if_neg hle)
  | cons p pending ih =>
      rw [List.cons_append, takeOver, takeOver]
      split
      · exact ih _
      · exact .inl rfl

/-- Where nothing stays pending, all took the operand. -/
theorem takeOver_of_eq_nil {strength : Nat} {pending : List Pending} {operand : Tree}
    (h : (takeOver strength pending operand).2 = []) :
    (takeOver strength pending operand).1 = takeOverAll pending operand ∧
      ∀ p ∈ pending, strength ≤ p.strength := by
  induction pending generalizing operand with
  | nil => exact ⟨rfl, by simp⟩
  | cons p pending ih =>
      rw [takeOver] at h ⊢
      split at h
      · rename_i hle
        rw [if_pos hle, List.forall_mem_cons]
        exact ⟨(ih h).1, hle, (ih h).2⟩
      · cases h

/-- The operators that are pending behind an operator, given what was read before it. -/
def pendingBehind (op : Operator) (before : List Pending × Tree) : List Pending :=
  .binary op (takeOver op.strength before.1 before.2).1 ::
    (takeOver op.strength before.1 before.2).2

theorem weight_pendingBehind (op : Operator) (before : List Pending × Tree) :
    weight (pendingBehind op before) = weight before.1 + before.2.leaves := by
  rw [pendingBehind, weight, Pending.weight, leaves_takeOver]

/-- The oldest pending operator stays the oldest, or the new one takes everything. -/
theorem pendingBehind_concat (op : Operator) (before : List Pending × Tree) (last : Pending) :
    pendingBehind op (before.1 ++ [last], before.2) = pendingBehind op before ++ [last] ∨
      ∃ tree, pendingBehind op (before.1 ++ [last], before.2) = [.binary op tree] := by
  rw [pendingBehind]
  dsimp only
  rcases takeOver_concat op.strength before.1 last before.2 with hkept | hnil
  · rw [hkept]
    exact .inl rfl
  · rw [hnil]
    exact .inr ⟨_, rfl⟩

/-- The oldest pending operator has more than `n` leaves on its left. -/
def OldestExceeds (pending : List Pending) (n : Nat) : Prop :=
  ∃ before last, pending = before ++ [last] ∧ n < last.weight

theorem oldestExceeds_concat {pending : List Pending} {last : Pending} {n : Nat} :
    OldestExceeds (pending ++ [last]) n ↔ n < last.weight := by
  constructor
  · rintro ⟨before, last', heq, hlt⟩
    rw [List.cons.inj (List.append_inj' heq rfl).2 |>.1]
    exact hlt
  · exact fun hlt => ⟨pending, last, rfl, hlt⟩

theorem OldestExceeds.mono {pending : List Pending} {n m : Nat} (h : OldestExceeds pending n)
    (hle : m ≤ n) : OldestExceeds pending m := by
  obtain ⟨before, last, hpending, hlt⟩ := h
  exact ⟨before, last, hpending, Nat.lt_of_le_of_lt hle hlt⟩

/-- An operator leaves no fewer leaves on the left of the oldest pending operator. -/
theorem OldestExceeds.pendingBehind {pending : List Pending} {n : Nat}
    (h : OldestExceeds pending n) (op : Operator) (operand : Tree) :
    OldestExceeds (pendingBehind op (pending, operand)) n := by
  obtain ⟨before, last, rfl, hlt⟩ := h
  have hweight := weight_pendingBehind op (before ++ [last], operand)
  rcases pendingBehind_concat op (before, operand) last with hkept | ⟨tree, hall⟩
  · exact ⟨_, last, hkept, hlt⟩
  · refine ⟨[], _, hall, ?_⟩
    rw [hall, weight, weight] at hweight
    dsimp only at hweight
    rw [weight_concat] at hweight
    omega

/-- The oldest operator is the root of the tree. -/
theorem not_oldestExceeds_of_takeOverAll_eq {pending : List Pending} {operand left right : Tree}
    {op : Operator} (h : takeOverAll pending operand = .binary op left right) :
    ¬ OldestExceeds pending left.leaves := by
  rintro ⟨before, last, rfl, hlt⟩
  rw [takeOverAll_concat] at h
  cases last with
  | unary op => cases h
  | binary op left =>
      cases h
      exact Nat.lt_irrefl _ hlt

/-! ## Readings -/

/-- What a piece of an expression is read as: the operators that are pending behind it and the
operand that is read last, given the operators that are pending before it. -/
abbrev Reading := List Pending → List Pending × Tree

namespace Reading

/-- A piece that no operator pulls apart. -/
def unit (tree : Tree) : Reading :=
  fun pending => (pending, tree)

/-- An operator in front of an operand. -/
def sign (op : UnaryOp) (operand : Reading) : Reading :=
  fun pending => operand (.unary op :: pending)

/-- An operator between two operands. -/
def operation (op : Operator) (left right : Reading) : Reading :=
  fun pending => right (pendingBehind op (left pending))

/-- What the piece denotes on its own. -/
def tree (r : Reading) : Tree :=
  takeOverAll (r []).1 (r []).2

/-- The piece as it is where it fits, and in parentheses elsewhere. -/
def fitted (r : Reading) (fits : Bool) : Reading :=
  if fits then r else unit r.tree

theorem tree_fitted (r : Reading) (fits : Bool) : (r.fitted fits).tree = r.tree := by
  cases fits <;> rfl

variable {r left right : Reading} {n m : Nat} {op : Operator}

/-- A piece with `n` leaves only adds them to what is pending: it leaves the oldest pending
operator alone, or has it taken over together with everything that is pending. -/
structure Steady (r : Reading) (n : Nat) : Prop where
  pos : 0 < n
  weight_eq : ∀ pending, weight (r pending).1 + (r pending).2.leaves = weight pending + n
  oldest : ∀ pending last,
    r (pending ++ [last]) = ((r pending).1 ++ [last], (r pending).2) ∨
      OldestExceeds (r (pending ++ [last])).1 (weight (pending ++ [last]))

namespace Steady

theorem leaves_tree (h : r.Steady n) : r.tree.leaves = n := by
  rw [tree, leaves_takeOverAll, h.weight_eq]
  exact Nat.zero_add n

theorem oldestExceeds (h : r.Steady n) {pending : List Pending}
    (hpending : OldestExceeds pending m) : OldestExceeds (r pending).1 m := by
  obtain ⟨before, last, rfl, hlt⟩ := hpending
  rcases h.oldest before last with hkept | hexceeds
  · rw [hkept]
    exact ⟨_, last, rfl, hlt⟩
  · apply hexceeds.mono
    rw [weight_concat]
    omega

theorem unit (tree : Tree) : (Reading.unit tree).Steady tree.leaves :=
  ⟨tree.leaves_pos, fun _ => rfl, fun _ _ => .inl rfl⟩

theorem fitted (h : r.Steady n) (fits : Bool) : (r.fitted fits).Steady n := by
  cases fits with
  | true => exact h
  | false =>
      have hunit := Steady.unit r.tree
      rwa [h.leaves_tree] at hunit

theorem sign (h : r.Steady n) (op : UnaryOp) : (Reading.sign op r).Steady n := by
  have hweight (pending : List Pending) : weight (.unary op :: pending) = weight pending := by
    rw [weight, Pending.weight, Nat.zero_add]
  constructor
  · exact h.pos
  · intro pending
    rw [Reading.sign, h.weight_eq, hweight]
  · intro pending last
    have holdest := h.oldest (.unary op :: pending) last
    rwa [List.cons_append, hweight] at holdest

theorem operation (hleft : left.Steady n) (hright : right.Steady m) (op : Operator) :
    (Reading.operation op left right).Steady (n + m) := by
  have hweight (pending : List Pending) :
      weight (pendingBehind op (left pending)) = weight pending + n := by
    rw [weight_pendingBehind, hleft.weight_eq]
  constructor
  · exact Nat.add_pos_left hleft.pos m
  · intro pending
    rw [Reading.operation, hright.weight_eq, hweight, Nat.add_assoc]
  · intro pending last
    have hweight' := hweight (pending ++ [last])
    have hpos := hleft.pos
    rw [Reading.operation]
    rcases hleft.oldest pending last with hkept | hexceeds
    · rw [hkept] at hweight' ⊢
      rcases pendingBehind_concat op (left pending) last with hkept' | ⟨tree, hall⟩
      · rw [hkept'] at hweight' ⊢
        rcases hright.oldest (pendingBehind op (left pending)) last with heq | hexceeds
        · exact .inl heq
        · exact .inr (hexceeds.mono (by omega))
      · rw [hall] at hweight' ⊢
        refine .inr (hright.oldestExceeds ⟨[], _, rfl, ?_⟩)
        rw [weight, weight] at hweight'
        omega
    · exact .inr (hright.oldestExceeds (hexceeds.pendingBehind op _))

end Steady

/-- An operator in front has its operand on its own, if it is the root of the tree. -/
theorem tree_eq_of_sign_tree_eq (h : r.Steady n) {op op' : UnaryOp} {operand : Tree}
    (htree : (sign op r).tree = .unary op' operand) : r.tree = operand := by
  change takeOverAll (r ([] ++ [Pending.unary op])).1 (r ([] ++ [Pending.unary op])).2 = _ at htree
  rcases h.oldest [] (.unary op) with hkept | ⟨before, last, hbefore, hlt⟩
  · rw [hkept, takeOverAll_concat] at htree
    cases htree
    rfl
  · rw [hbefore, takeOverAll_concat] at htree
    cases last with
    | unary op => exact absurd hlt (Nat.not_lt_zero _)
    | binary op left => cases htree

/-- An operation whose tree has the leaves of its left operand on the left of the root has its two
operands on their own. -/
theorem trees_eq_of_operation_tree_eq (hleft : left.Steady n) (hright : right.Steady m)
    {op' : Operator} {leftTree rightTree : Tree}
    (htree : (operation op left right).tree = .binary op' leftTree rightTree)
    (hleaves : leftTree.leaves = n) :
    left.tree = leftTree ∧ right.tree = rightTree ∧
      (∀ p ∈ (left []).1, op.strength ≤ p.strength) ∧
      (operation op left right []).1 = (right []).1 ++ [Pending.binary op leftTree] ∧
      (right [Pending.binary op leftTree]).1 = (right []).1 ++ [Pending.binary op leftTree] := by
  have hweight : weight (pendingBehind op (left [])) = n := by
    rw [weight_pendingBehind, hleft.weight_eq]
    exact Nat.zero_add n
  have hnot : ¬ OldestExceeds (operation op left right []).1 n :=
    hleaves ▸ not_oldestExceeds_of_takeOverAll_eq htree
  rcases List.eq_nil_or_concat (takeOver op.strength (left []).1 (left []).2).2 with
    hnil | ⟨before, last, hconcat⟩
  · obtain ⟨hall, hstrong⟩ := takeOver_of_eq_nil hnil
    have hbehind : pendingBehind op (left []) = [] ++ [.binary op left.tree] := by
      rw [pendingBehind, hnil, hall]
      rfl
    rcases hright.oldest [] (.binary op left.tree) with hkept | hexceeds
    · rw [tree, operation, hbehind, hkept, takeOverAll_concat] at htree
      cases htree
      rw [operation, hbehind]
      have hfirst := congrArg Prod.fst hkept
      exact ⟨rfl, rfl, hstrong, hfirst, hfirst⟩
    · rw [operation, hbehind] at hnot
      rw [hbehind] at hweight
      exact absurd (hweight ▸ hexceeds) hnot
  · -- Otherwise the operator comes too late to be the root.
    have hbehind : pendingBehind op (left []) =
        .binary op (takeOver op.strength (left []).1 (left []).2).1 :: before ++ [last] := by
      rw [pendingBehind, hconcat]
      simp
    rw [hbehind] at hweight
    rcases hright.oldest _ last with hkept | hexceeds
    · rw [tree, operation, hbehind, hkept, takeOverAll_concat] at htree
      cases last with
      | unary op => cases htree
      | binary op left' =>
          cases htree
          have hpos := (takeOver op.strength (left []).1 (left []).2).1.leaves_pos
          rw [weight_concat, weight, Pending.weight, Pending.weight] at hweight
          omega
    · rw [operation, hbehind] at hnot
      exact absurd (hweight ▸ hexceeds) hnot

/-- A piece denotes the tree wherever only looser operators are pending: it leaves operators
behind that bind at least as tightly as `strength`, and once they take the operand, it is the
tree. -/
def Denotes (r : Reading) (strength : Nat) (tree : Tree) : Prop :=
  ∀ pending, (∀ p ∈ pending.head?, p.strength < strength) →
    ∃ front operand, r pending = (front ++ pending, operand) ∧
      (∀ p ∈ front, strength ≤ p.strength) ∧ takeOverAll front operand = tree

namespace Denotes

variable {strength : Nat} {tree leftTree rightTree : Tree}

theorem unit (tree : Tree) (strength : Nat) : (Reading.unit tree).Denotes strength tree :=
  fun _ _ => ⟨[], tree, rfl, by simp, rfl⟩

theorem tree_eq (h : r.Denotes strength tree) : r.tree = tree := by
  obtain ⟨front, operand, hr, _, htree⟩ := h [] (by simp)
  rw [Reading.tree, hr, List.append_nil, htree]

theorem mono (h : r.Denotes strength tree) {looser : Nat} (hle : looser ≤ strength) :
    r.Denotes looser tree := by
  intro pending hpending
  obtain ⟨front, operand, hr, hfront, htree⟩ := h pending fun p hp =>
    Nat.lt_of_lt_of_le (hpending p hp) hle
  exact ⟨front, operand, hr, fun p hp => Nat.le_trans hle (hfront p hp), htree⟩

/-- What fits is as strong as its place needs, and parentheses are as strong as any place needs. -/
theorem fitted (h : r.Denotes strength tree) {fits : Bool} {needed : Nat}
    (hfits : fits = true → needed ≤ strength) : (r.fitted fits).Denotes needed tree := by
  cases fits with
  | true => exact h.mono (hfits rfl)
  | false =>
      rw [Reading.fitted, if_neg Bool.false_ne_true, h.tree_eq]
      exact .unit tree needed

/-- An operator in front takes an operand that binds more tightly. -/
theorem sign {op : UnaryOp} (h : r.Denotes (signStrength op + 1) tree) :
    (Reading.sign op r).Denotes (signStrength op) (.unary op tree) := by
  intro pending _
  obtain ⟨front, operand, hr, hfront, htree⟩ := h (.unary op :: pending)
    (by simp [Pending.strength])
  refine ⟨front ++ [Pending.unary op], operand, ?_, ?_, ?_⟩
  · rw [Reading.sign, hr, List.append_assoc]
    rfl
  · intro p hp
    rw [List.mem_append, List.mem_singleton] at hp
    rcases hp with hp | rfl
    · exact Nat.le_of_lt (hfront p hp)
    · exact Nat.le_refl _
  · rw [takeOverAll_concat, htree]
    rfl

/-- An operator takes a left operand that binds at least as tightly and a right operand that
binds more tightly. -/
theorem operation (hleft : left.Denotes op.strength leftTree)
    (hright : right.Denotes (op.strength + 1) rightTree) :
    (Reading.operation op left right).Denotes op.strength (.binary op leftTree rightTree) := by
  intro pending hpending
  obtain ⟨front, operand, hl, hfront, htree⟩ := hleft pending hpending
  obtain ⟨front', operand', hr, hfront', htree'⟩ := hright (.binary op leftTree :: pending)
    (by simp [Pending.strength])
  refine ⟨front' ++ [Pending.binary op leftTree], operand', ?_, ?_, ?_⟩
  · rw [Reading.operation, hl, pendingBehind, takeOver_append hfront hpending, htree, hr,
      List.append_assoc]
    rfl
  · intro p hp
    rw [List.mem_append, List.mem_singleton] at hp
    rcases hp with hp | rfl
    · exact Nat.le_of_lt (hfront' p hp)
    · exact Nat.le_refl _
  · rw [takeOverAll_concat, htree']
    rfl

end Denotes

end Reading

/-! ## Readings of expressions -/

/-- The operator of VBA that stands for an operator of this library. -/
def Operator.of : BinaryOp → Operator
  | .power => .power
  | .multiply => .multiply
  | .divide => .divide
  | .floorDivide => .quotient
  | .modulo => .remainder
  | .add => .add
  | .subtract => .subtract
  | .equal => .equal
  | .notEqual => .notEqual
  | .lessThan => .lessThan
  | .lessEqual => .lessEqual
  | .greaterThan => .greaterThan
  | .greaterEqual => .greaterEqual
  | .and => .and
  | .or => .or

mutual

/-- What an expression denotes: its operations without parentheses, with the operators that VBA
has for them. -/
def treeOf : Expr → Tree
  | .number _ text => .number text
  | .string _ contents => .string contents
  | .bool _ value => .bool value
  | .name _ word => .name word
  | .index _ base position => .apply (treeOf base) [treeOf position]
  | .call _ word args _ => .apply (.name word) (treesOf args)
  | .builtin _ function args => .apply (.name function.name) (treesOf args)
  | .unary _ op operand => .unary op (treeOf operand)
  | .binary _ op left right => .binary (.of op) (treeOf left) (treeOf right)
  | .group _ inner => treeOf inner

/-- What several expressions denote. -/
def treesOf : List Expr → List Tree
  | [] => []
  | e :: rest => treeOf e :: treesOf rest

end

/-- The level on which an operator in front of an operand is printed for VBA. -/
def signLevel : UnaryOp → Precedence
  | .negate => .unary
  | .not => .and

/-- The level on which an expression is printed for VBA. -/
def printedLevel : Expr → Precedence
  | .unary _ op _ => signLevel op
  | .binary _ op _ _ => op.precedence
  | _ => .primary

/-- The levels of operands that are printed without parentheses behind the operator. -/
def fitsSign (op : UnaryOp) (level : Precedence) : Bool :=
  match op with
  | .negate => .unary < level
  | .not => .unary ≤ level

mutual

/-- How VBA reads an expression as it is printed. -/
def readingOf : Expr → Reading
  | .number _ text => .unit (.number text)
  | .string _ contents => .unit (.string contents)
  | .bool _ value => .unit (.bool value)
  | .name _ word => .unit (.name word)
  | .index _ base position => .unit (.apply (readingOf base).tree [(readingOf position).tree])
  | .call _ word args _ => .unit (.apply (.name word) (readTrees args))
  | .builtin _ function args => .unit (.apply (.name function.name) (readTrees args))
  | .unary _ op operand =>
    .sign op ((readingOf operand).fitted (fitsSign op (printedLevel operand)))
  | .binary _ op left right =>
    .operation (.of op) ((readingOf left).fitted (op.fitsLeft (printedLevel left)))
      ((readingOf right).fitted (op.fitsRight (printedLevel right)))
  | .group _ inner => .unit (readingOf inner).tree

/-- What several expressions are read as. -/
def readTrees : List Expr → List Tree
  | [] => []
  | e :: rest => (readingOf e).tree :: readTrees rest

end

/-- The exponent is a power without parentheses. VBA groups such a chain from the left. -/
def RaisesToPower : Expr → Prop
  | .binary _ .power _ (.binary _ .power _ _) => True
  | _ => False

/-- The left operand is an operation of the same level without parentheses, and VBA binds its
operator more loosely. VBA gives the operand between the two operators to the second. -/
def TakesOperand : Expr → Prop
  | .binary _ op (.binary _ op' _ _) _ =>
    op.precedence = op'.precedence ∧ (Operator.of op').strength < (Operator.of op).strength
  | _ => False

theorem steady_readingOf : ∀ e : Expr, (readingOf e).Steady (treeOf e).leaves
  | .number .. | .string .. | .bool .. | .name .. | .index .. | .call .. | .builtin .. => .unit _
  | .unary _ op operand => ((steady_readingOf operand).fitted _).sign op
  | .binary _ op left right =>
      ((steady_readingOf left).fitted _).operation ((steady_readingOf right).fitted _) (.of op)
  | .group _ inner => (steady_readingOf inner).fitted false

/-! ## Expressions that are read as they are meant -/

/-- The strength of an expression as it is printed for VBA. -/
def strengthOf : Expr → Nat
  | .unary _ op _ => signStrength op
  | .binary _ op _ _ => (Operator.of op).strength
  | _ => unitStrength

/-- Operators that fit around each other by the levels of this library fit in VBA, unless the
second takes an operand of the first. -/
theorem strength_le_of_fitsLeft {op op' : BinaryOp} (hfits : op.fitsLeft op'.precedence = true)
    (h : ¬ (op.precedence = op'.precedence ∧
      (Operator.of op').strength < (Operator.of op).strength)) :
    (Operator.of op).strength ≤ (Operator.of op').strength := by
  revert hfits h
  cases op <;> cases op' <;> decide

theorem strength_lt_of_fitsRight {op op' : BinaryOp} (hfits : op.fitsRight op'.precedence = true)
    (h : ¬ (op = .power ∧ op' = .power)) :
    (Operator.of op).strength < (Operator.of op').strength := by
  revert hfits h
  cases op <;> cases op' <;> decide

theorem signStrength_lt_unit (op : UnaryOp) : signStrength op < unitStrength := by
  cases op <;> decide

theorem strength_lt_unit (op : BinaryOp) : (Operator.of op).strength < unitStrength := by
  cases op <;> decide

/-- A left operand that is written without parentheses is strong enough. -/
theorem strength_le_strengthOf {span : Span} {op : BinaryOp} {left right : Expr}
    (h : ¬ TakesOperand (.binary span op left right))
    (hfits : op.fitsLeft (printedLevel left) = true) :
    (Operator.of op).strength ≤ strengthOf left := by
  cases left with
  | binary span' op' l r => exact strength_le_of_fitsLeft hfits h
  | unary span' op' operand =>
      rw [printedLevel] at hfits
      rw [strengthOf]
      revert hfits
      cases op <;> cases op' <;> decide
  | _ => exact Nat.le_of_lt (strength_lt_unit op)

/-- A right operand that is written without parentheses is strong enough. -/
theorem strength_lt_strengthOf {span : Span} {op : BinaryOp} {left right : Expr}
    (h : ¬ RaisesToPower (.binary span op left right))
    (hfits : op.fitsRight (printedLevel right) = true) :
    (Operator.of op).strength < strengthOf right := by
  cases right with
  | binary span' op' l r =>
      apply strength_lt_of_fitsRight hfits
      rintro ⟨rfl, rfl⟩
      exact h trivial
  | unary span' op' operand =>
      rw [printedLevel] at hfits
      rw [strengthOf]
      revert hfits
      cases op <;> cases op' <;> decide
  | _ => exact strength_lt_unit op

/-- An operand that is written without parentheses behind an operator is strong enough. -/
theorem signStrength_lt_strengthOf {op : UnaryOp} {operand : Expr}
    (hfits : fitsSign op (printedLevel operand) = true) :
    signStrength op < strengthOf operand := by
  cases operand with
  | binary span' op' l r =>
      rw [printedLevel] at hfits
      rw [strengthOf]
      revert hfits
      cases op <;> cases op' <;> decide
  | unary span' op' operand =>
      rw [printedLevel] at hfits
      rw [strengthOf]
      revert hfits
      cases op <;> cases op' <;> decide
  | _ => exact signStrength_lt_unit op

mutual

/-- Without the two arrangements an expression is read as it is meant. -/
theorem denotes_readingOf :
    ∀ e : Expr, (∀ part ∈ e.parts, ¬ RaisesToPower part ∧ ¬ TakesOperand part) →
      (readingOf e).Denotes (strengthOf e) (treeOf e)
  | .number .., _ | .string .., _ | .bool .., _ | .name .., _ => .unit _ _
  | .index span base position, h => by
      rw [Expr.parts, List.forall_mem_cons, List.forall_mem_append] at h
      rw [readingOf, treeOf, (denotes_readingOf base h.2.1).tree_eq,
        (denotes_readingOf position h.2.2).tree_eq]
      exact .unit _ _
  | .call span word args userDefined, h => by
      rw [Expr.parts, List.forall_mem_cons] at h
      rw [readingOf, treeOf, readTrees_eq args h.2]
      exact .unit _ _
  | .builtin span function args, h => by
      rw [Expr.parts, List.forall_mem_cons] at h
      rw [readingOf, treeOf, readTrees_eq args h.2]
      exact .unit _ _
  | .unary span op operand, h => by
      rw [Expr.parts, List.forall_mem_cons] at h
      exact ((denotes_readingOf operand h.2).fitted signStrength_lt_strengthOf).sign
  | .binary span op left right, h => by
      rw [Expr.parts, List.forall_mem_cons, List.forall_mem_append] at h
      obtain ⟨⟨hraises, htakes⟩, hleft, hright⟩ := h
      exact ((denotes_readingOf left hleft).fitted (strength_le_strengthOf htakes)).operation
        ((denotes_readingOf right hright).fitted (strength_lt_strengthOf hraises))
  | .group span inner, h => by
      rw [Expr.parts, List.forall_mem_cons] at h
      rw [readingOf, treeOf, (denotes_readingOf inner h.2).tree_eq]
      exact .unit _ _

/-- Without the two arrangements several expressions are read as they are meant. -/
theorem readTrees_eq :
    ∀ args : List Expr,
      (∀ part ∈ Expr.partsOfAll args, ¬ RaisesToPower part ∧ ¬ TakesOperand part) →
        readTrees args = treesOf args
  | [], _ => rfl
  | e :: args, h => by
      rw [Expr.partsOfAll, List.forall_mem_append] at h
      rw [readTrees, treesOf, (denotes_readingOf e h.1).tree_eq, readTrees_eq args h.2]

end

/-! ## Expressions that are not -/

/-- The operands of an operation that is read as it is meant are read as they are meant, and no
operator is taken over that should not be. -/
theorem operands_of_tree_eq {span : Span} {op : BinaryOp} {left right : Expr}
    (h : (readingOf (.binary span op left right)).tree = treeOf (.binary span op left right)) :
    (readingOf left).tree = treeOf left ∧ (readingOf right).tree = treeOf right ∧
      (∀ p ∈ ((readingOf left).fitted (op.fitsLeft (printedLevel left)) []).1,
        (Operator.of op).strength ≤ p.strength) ∧
      ∃ front, (readingOf (.binary span op left right) []).1 =
          front ++ [Pending.binary (.of op) (treeOf left)] ∧
        ((readingOf right).fitted (op.fitsRight (printedLevel right))
          [Pending.binary (.of op) (treeOf left)]).1 =
            front ++ [Pending.binary (.of op) (treeOf left)] := by
  have hleft := (steady_readingOf left).fitted (op.fitsLeft (printedLevel left))
  have hright := (steady_readingOf right).fitted (op.fitsRight (printedLevel right))
  obtain ⟨hl, hr, hstrong, hbehind, halone⟩ :=
    Reading.trees_eq_of_operation_tree_eq hleft hright h rfl
  rw [Reading.tree_fitted] at hl hr
  exact ⟨hl, hr, hstrong, _, hbehind, halone⟩

/-- An operator that takes an operand of the operation on its left takes it over. -/
theorem not_takesOperand_of_tree_eq {span : Span} {op : BinaryOp} {left right : Expr}
    (h : (readingOf (.binary span op left right)).tree = treeOf (.binary span op left right)) :
    ¬ TakesOperand (.binary span op left right) := by
  obtain ⟨hl, _, hstrong, _⟩ := operands_of_tree_eq h
  cases left with
  | binary span' op' l r =>
      rintro ⟨hlevel, hlt⟩
      have hfits : op.fitsLeft (printedLevel (.binary span' op' l r)) = true := by
        rw [printedLevel]
        revert hlevel hlt
        cases op <;> cases op' <;> decide
      obtain ⟨_, _, _, front, hfront, _⟩ := operands_of_tree_eq hl
      rw [hfits, Reading.fitted, if_pos rfl, hfront] at hstrong
      exact Nat.not_le_of_lt hlt (hstrong (.binary (.of op') (treeOf l)) (by simp))
  | _ => exact id

/-- An expression that fits on the left of a power is a unit. -/
theorem exists_fitted_eq_unit (e : Expr) :
    ∃ tree, (readingOf e).fitted (BinaryOp.power.fitsLeft (printedLevel e)) = .unit tree := by
  cases e with
  | unary span op operand => cases op <;> exact ⟨_, rfl⟩
  | binary span op left right => cases op <;> exact ⟨_, rfl⟩
  | _ => exact ⟨_, rfl⟩

/-- A power whose exponent is a power takes the base and the first exponent together. -/
theorem not_raisesToPower_of_tree_eq {span : Span} {op : BinaryOp} {left right : Expr}
    (h : (readingOf (.binary span op left right)).tree = treeOf (.binary span op left right)) :
    ¬ RaisesToPower (.binary span op left right) := by
  obtain ⟨_, _, _, front, _, halone⟩ := operands_of_tree_eq h
  cases right with
  | binary span' op' base exponent =>
      intro hraises
      obtain ⟨rfl, rfl⟩ : op = .power ∧ op' = .power := by
        revert hraises
        cases op <;> cases op' <;> simp [RaisesToPower]
      obtain ⟨tree, hbase⟩ := exists_fitted_eq_unit base
      have hsteady := (steady_readingOf exponent).fitted
        (BinaryOp.power.fitsRight (printedLevel exponent))
      have htaken : OldestExceeds
          [.binary .power (.binary .power (treeOf left) tree)] (treeOf left).leaves := by
        rw [← List.nil_append [_], oldestExceeds_concat]
        exact Nat.lt_add_of_pos_right tree.leaves_pos
      have hexceeds := hsteady.oldestExceeds htaken
      rw [printedLevel, Reading.fitted, if_pos (by decide), readingOf, hbase] at halone
      change ((readingOf exponent).fitted _ [.binary .power (.binary .power (treeOf left) tree)]).1
        = _ at halone
      rw [halone, oldestExceeds_concat] at hexceeds
      exact Nat.lt_irrefl _ hexceeds
  | _ =>
      intro hraises
      cases op <;> exact hraises

mutual

/-- An expression that is read as it is meant has neither of the two arrangements. -/
theorem readsAlike_of_tree_eq :
    ∀ e : Expr, (readingOf e).tree = treeOf e →
      ∀ part ∈ e.parts, ¬ RaisesToPower part ∧ ¬ TakesOperand part
  | .number .., _ | .string .., _ | .bool .., _ | .name .., _ => by
      rw [Expr.parts, List.forall_mem_singleton]
      exact ⟨id, id⟩
  | .index span base position, h => by
      obtain ⟨hbase, hposition⟩ := Tree.apply.inj h
      rw [Expr.parts, List.forall_mem_cons, List.forall_mem_append]
      exact ⟨⟨id, id⟩, readsAlike_of_tree_eq base hbase,
        readsAlike_of_tree_eq position (List.cons.inj hposition).1⟩
  | .call span word args userDefined, h => by
      rw [Expr.parts, List.forall_mem_cons]
      exact ⟨⟨id, id⟩, readsAlike_of_readTrees_eq args (Tree.apply.inj h).2⟩
  | .builtin span function args, h => by
      rw [Expr.parts, List.forall_mem_cons]
      exact ⟨⟨id, id⟩, readsAlike_of_readTrees_eq args (Tree.apply.inj h).2⟩
  | .unary span op operand, h => by
      have hoperand := Reading.tree_eq_of_sign_tree_eq ((steady_readingOf operand).fitted _) h
      rw [Reading.tree_fitted] at hoperand
      rw [Expr.parts, List.forall_mem_cons]
      exact ⟨⟨id, id⟩, readsAlike_of_tree_eq operand hoperand⟩
  | .binary span op left right, h => by
      obtain ⟨hleft, hright, _⟩ := operands_of_tree_eq h
      rw [Expr.parts, List.forall_mem_cons, List.forall_mem_append]
      exact ⟨⟨not_raisesToPower_of_tree_eq h, not_takesOperand_of_tree_eq h⟩,
        readsAlike_of_tree_eq left hleft, readsAlike_of_tree_eq right hright⟩
  | .group span inner, h => by
      rw [Expr.parts, List.forall_mem_cons]
      exact ⟨⟨id, id⟩, readsAlike_of_tree_eq inner h⟩

/-- Expressions that are read as they are meant have neither of the two arrangements. -/
theorem readsAlike_of_readTrees_eq :
    ∀ args : List Expr, readTrees args = treesOf args →
      ∀ part ∈ Expr.partsOfAll args, ¬ RaisesToPower part ∧ ¬ TakesOperand part
  | [], _ => by simp [Expr.partsOfAll]
  | e :: args, h => by
      obtain ⟨he, hargs⟩ := List.cons.inj h
      rw [Expr.partsOfAll, List.forall_mem_append]
      exact ⟨readsAlike_of_tree_eq e he, readsAlike_of_readTrees_eq args hargs⟩

end

/-- VBA reads an expression as it is meant exactly if it raises to no power that stands without
parentheses, and no operator takes an operand of the operation on its left. -/
theorem tree_readingOf_eq_iff (e : Expr) :
    (readingOf e).tree = treeOf e ↔
      ∀ part ∈ e.parts, ¬ RaisesToPower part ∧ ¬ TakesOperand part :=
  ⟨readsAlike_of_tree_eq e, fun h => (denotes_readingOf e h).tree_eq⟩

end BlockCode.VbaReading
