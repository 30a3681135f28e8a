/- # Which positions are cut off

Going through the table, a position is cut off when the cuts made so far leave it out of reach of
every root. So what is cut depends on the order of the table: a position is cut off exactly when the
way up from it never ends and never comes to an earlier position. On each circle this is the first
position of the circle. But a position below a circle is cut off as well when it comes before all
that is above it, although the cut in the circle alone would have brought it within reach.
-/

import Mathlib.Data.Nat.Find
import BlockCode.Proofs.Program.Forest

namespace BlockCode

namespace ParentTable

variable {table : ParentTable} {cut : List Nat}

/-! ## The cuts in front of a position -/

/-- The positions below `n` that are cut off. -/
def cutsBefore (table : ParentTable) (n : Nat) : List Nat :=
  (List.range n).foldl
    (fun cut i => if table.reachesRoot cut table.length i then cut else cut ++ [i]) []

theorem cuts_eq_cutsBefore (table : ParentTable) : table.cuts = table.cutsBefore table.length :=
  rfl

theorem cutsBefore_succ (table : ParentTable) (n : Nat) :
    table.cutsBefore (n + 1) =
      if table.reachesRoot (table.cutsBefore n) table.length n then table.cutsBefore n
      else table.cutsBefore n ++ [n] := by
  rw [cutsBefore, List.range_succ, List.foldl_append]
  rfl

/-- Whether a position is cut off is decided by the cuts in front of it. -/
theorem mem_cutsBefore_iff {n i : Nat} :
    i ∈ table.cutsBefore n ↔
      i < n ∧ table.reachesRoot (table.cutsBefore i) table.length i = false := by
  induction n with
  | zero => simp [cutsBefore]
  | succ n ih =>
      rw [cutsBefore_succ]
      by_cases heq : i = n
      · subst heq
        have hout : i ∉ table.cutsBefore i := fun hmem => Nat.lt_irrefl i (ih.mp hmem).1
        split <;> simp_all
      · have hlt : i < n + 1 ↔ i < n := by omega
        rw [hlt, ← ih]
        split <;> simp [heq]

/-! ## Ways that never end -/

/-- Without cuts every parent is kept. -/
theorem kept_nil (i : Nat) : table.kept [] i = table.parent? i :=
  if_neg List.not_mem_nil

/-- A way that meets no cut is one in the whole table. -/
theorem climb_nil_of_climb {steps i p : Nat} (h : table.climb cut steps i = some p) :
    table.climb [] steps i = some p := by
  induction steps generalizing i with
  | zero => exact h
  | succ steps ih =>
      rw [climb] at h
      obtain ⟨q, hq, hclimb⟩ := Option.bind_eq_some_iff.mp h
      rw [climb, kept_nil, parent?_of_kept hq, Option.bind_some, ih hclimb]

/-- Among the positions on the way up there is a first one in the order of the table. -/
theorem exists_first (table : ParentTable) (i : Nat) :
    ∃ start first, table.climb [] start i = some first ∧
      ∀ steps p, table.climb [] steps i = some p → first ≤ p := by
  classical
  have hexists : ∃ p steps, table.climb [] steps i = some p := ⟨i, 0, rfl⟩
  obtain ⟨start, hstart⟩ := Nat.find_spec hexists
  exact ⟨start, _, hstart, fun steps p h => Nat.find_min' hexists ⟨steps, h⟩⟩

/-- A position is out of reach when its turn comes exactly when the way up from it never ends and
never comes to an earlier position. -/
theorem reachesRoot_cutsBefore_eq_false_iff
    (hbound : ∀ i p, table.parent? i = some p → p < table.length) {i : Nat}
    (hi : i < table.length) :
    table.reachesRoot (table.cutsBefore i) table.length i = false ↔
      ∀ steps, ∃ p, table.climb [] steps i = some p ∧ i ≤ p := by
  induction i using Nat.strongRecOn with
  | ind i ih =>
      constructor
      · intro hreach
        have hway := exists_kept_of_reachesRoot_eq_false hbound hi hreach
        obtain ⟨start, first, hstart, hmin⟩ := exists_first table i
        -- An earlier position on the way would have been cut off before, and the way ends there.
        have hfirst : i ≤ first := by
          by_contra hlt
          have hcut : first ∈ table.cutsBefore i := by
            rw [mem_cutsBefore_iff, ih first (by omega) (by omega)]
            refine ⟨by omega, fun steps => ?_⟩
            obtain ⟨p, _, hclimb, _⟩ := hway (start + steps)
            have hrest := climb_nil_of_climb hclimb
            rw [climb_add, hstart, Option.bind_some] at hrest
            exact ⟨p, hrest, hmin _ p (climb_nil_of_climb hclimb)⟩
          obtain ⟨p, q, hclimb, hkept⟩ := hway start
          obtain rfl := Option.some.inj (hstart.symm.trans (climb_nil_of_climb hclimb))
          rw [kept, if_pos hcut] at hkept
          cases hkept
        intro steps
        obtain ⟨p, _, hclimb, _⟩ := hway steps
        have hnil := climb_nil_of_climb hclimb
        exact ⟨p, hnil, Nat.le_trans hfirst (hmin _ p hnil)⟩
      · intro hway
        rw [Bool.eq_false_iff]
        intro hreach
        obtain ⟨steps, p, hclimb, hroot⟩ := exists_climb_of_reachesRoot hreach
        have hnil := climb_nil_of_climb hclimb
        obtain ⟨q, hq, hle⟩ := hway steps
        obtain rfl := Option.some.inj (hnil.symm.trans hq)
        have hout : p ∉ table.cutsBefore i := fun hcut =>
          Nat.not_le_of_gt (mem_cutsBefore_iff.mp hcut).1 hle
        rw [kept, if_neg hout] at hroot
        obtain ⟨r, hr, _⟩ := hway (steps + 1)
        rw [climb_add, hnil, Option.bind_some, climb_one, kept_nil, hroot] at hr
        cases hr

/-- A position is cut off exactly when the way up from it never ends and never comes to an earlier
position. -/
theorem mem_cuts_iff (hbound : ∀ i p, table.parent? i = some p → p < table.length) {i : Nat} :
    i ∈ table.cuts ↔
      i < table.length ∧ ∀ steps, ∃ p, table.climb [] steps i = some p ∧ i ≤ p := by
  rw [cuts_eq_cutsBefore, mem_cutsBefore_iff]
  exact and_congr_right (reachesRoot_cutsBefore_eq_false_iff hbound)

/-- A way that never ends leads into a circle. -/
theorem exists_circle (hbound : ∀ i p, table.parent? i = some p → p < table.length) {i : Nat}
    (hi : i < table.length) (hway : ∀ steps, ∃ p, table.climb cut steps i = some p) :
    ∃ steps round p, table.climb cut steps i = some p ∧
      table.climb cut (round + 1) p = some p := by
  by_contra hnone
  have not_lt {a b : Nat} (heq : table.climb cut a i = table.climb cut b i) : ¬ a < b := by
    intro hlt
    obtain ⟨round, rfl⟩ := Nat.exists_eq_add_of_lt hlt
    obtain ⟨p, hp⟩ := hway a
    rw [Nat.add_assoc, climb_add, hp, Option.bind_some] at heq
    exact hnone ⟨a, round, p, hp, heq.symm⟩
  refine Nat.lt_irrefl _ (lt_length_of_distinct hbound hi (fun a _ => hway a) fun a _ b _ heq => ?_)
  exact Nat.le_antisymm (Nat.le_of_not_lt (not_lt heq.symm)) (Nat.le_of_not_lt (not_lt heq))

/-- A way into a circle never ends. -/
theorem exists_climb_of_circle {steps round i p : Nat} (h : table.climb cut steps i = some p)
    (hround : table.climb cut (round + 1) p = some p) (n : Nat) :
    ∃ q, table.climb cut n i = some q := by
  have htimes (times : Nat) : table.climb cut (steps + times * (round + 1)) i = some p := by
    induction times with
    | zero => rwa [Nat.zero_mul, Nat.add_zero]
    | succ times ih => rw [Nat.succ_mul, ← Nat.add_assoc, climb_add, ih, Option.bind_some, hround]
  have hle : n ≤ n * (round + 1) := Nat.le_mul_of_pos_right n (Nat.succ_pos round)
  obtain ⟨q, hq, _⟩ := exists_climb_of_le (htimes n) (Nat.le_add_left_of_le hle)
  exact ⟨q, hq⟩

end ParentTable

end BlockCode
