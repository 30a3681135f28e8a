/- # Forests of positions

A table of parents describes a forest of positions once every circle of parents is cut. Going from
parent to parent then ends for every position, in fewer steps than there are positions, because no
position is met twice on the way. So a forest that is grown from the roots to that depth has every
position, and it has each only once, because two roots have nothing below them in common.
-/

import Mathlib.Data.List.Nodup
import Mathlib.Data.List.Perm.Subperm
import BlockCode.Proofs.Program.Rebuild

namespace BlockCode

/-- A list of positions with what is nested under each of them. -/
inductive PositionForest where
  | nil
  | cons (position : Nat) (body : PositionForest) (next : PositionForest)

namespace PositionForest

/-- All positions, each before those nested under it. -/
def positions : PositionForest → List Nat
  | .nil => []
  | .cons i body next => i :: (body.positions ++ next.positions)

/-- The positions of the list itself. -/
def roots : PositionForest → List Nat
  | .nil => []
  | .cons i _ next => i :: next.roots

/-- Each position with the list of those directly under it. -/
def families : PositionForest → List (Nat × List Nat)
  | .nil => []
  | .cons i body next => (i, body.roots) :: (body.families ++ next.families)

end PositionForest

namespace ParentTable

/-- The parent of a position that has not been cut off from it. -/
def kept (table : ParentTable) (cut : List Nat) (i : Nat) : Option Nat :=
  if i ∈ cut then none else table.parent? i

/-- Where going from parent to parent so many times leads, stopping at no root. -/
def climb (table : ParentTable) (cut : List Nat) : Nat → Nat → Option Nat
  | 0, i => some i
  | steps + 1, i => (table.kept cut i).bind (table.climb cut steps)

/-- The forest below the positions, to a depth of at most `fuel`. -/
def grow (table : ParentTable) (cut : List Nat) : Nat → List Nat → PositionForest
  | 0, _ => .nil
  | fuel + 1, positions =>
    positions.foldr
      (fun i rest => .cons i (table.grow cut fuel (table.children cut i)) rest) .nil

variable {table : ParentTable} {cut : List Nat}

theorem lt_length_of_parent? {i p : Nat} (h : table.parent? i = some p) : i < table.length := by
  rw [parent?, List.getD_eq_getElem?_getD] at h
  by_contra hlt
  rw [List.getElem?_eq_none (by omega)] at h
  cases h

theorem parent?_of_kept {i p : Nat} (h : table.kept cut i = some p) : table.parent? i = some p := by
  rw [kept] at h
  split at h
  · cases h
  · exact h

theorem mem_children {i p : Nat} : i ∈ table.children cut p ↔ table.kept cut i = some p := by
  rw [children, List.mem_filter, List.mem_range, kept]
  by_cases hcut : i ∈ cut
  · simp [hcut]
  · simp only [hcut, if_false, List.contains_eq_mem, decide_false, Bool.not_false, Bool.and_true,
      beq_iff_eq]
    exact and_iff_right_of_imp lt_length_of_parent?

/-! ## Going from parent to parent -/

theorem climb_add (m n i : Nat) :
    table.climb cut (m + n) i = (table.climb cut m i).bind (table.climb cut n) := by
  induction m generalizing i with
  | zero => rw [Nat.zero_add, climb, Option.bind_some]
  | succ m ih =>
      rw [Nat.succ_add, climb, climb, Option.bind_assoc]
      congr 1
      funext p
      exact ih p

theorem climb_one (i : Nat) : table.climb cut 1 i = table.kept cut i := by
  rw [climb]
  cases table.kept cut i <;> rfl

/-- The last step leads to a position from one directly under it. -/
theorem climb_succ_eq_some_iff {steps i p : Nat} :
    table.climb cut (steps + 1) i = some p ↔
      ∃ c ∈ table.children cut p, table.climb cut steps i = some c := by
  rw [climb_add, Option.bind_eq_some_iff]
  simp only [climb_one, mem_children]
  exact exists_congr fun c => and_comm

/-- Nothing is above a root. -/
theorem climb_eq_none {p steps : Nat} (hroot : table.kept cut p = none) (h : 0 < steps) :
    table.climb cut steps p = none := by
  obtain ⟨steps, rfl⟩ : ∃ n, steps = n + 1 := ⟨steps - 1, by omega⟩
  rw [climb, hroot, Option.bind_none]

/-- The number of steps to a root is fixed. -/
theorem steps_unique {i p q m n : Nat} (hm : table.climb cut m i = some p)
    (hp : table.kept cut p = none) (hn : table.climb cut n i = some q)
    (hq : table.kept cut q = none) : m = n := by
  have no_more {a b x y : Nat} (ha : table.climb cut a i = some x) (hx : table.kept cut x = none)
      (hb : table.climb cut b i = some y) : ¬ a < b := by
    intro hlt
    obtain ⟨c, rfl⟩ := Nat.exists_eq_add_of_lt hlt
    rw [Nat.add_assoc, climb_add, ha, Option.bind_some, climb_eq_none hx (by omega)] at hb
    cases hb
  exact Nat.le_antisymm (Nat.le_of_not_lt (no_more hn hq hm)) (Nat.le_of_not_lt (no_more hm hp hn))

/-- Every position on the way is in the table. -/
theorem climb_lt_length (hbound : ∀ i p, table.parent? i = some p → p < table.length)
    {i p steps : Nat} (hi : i < table.length) (h : table.climb cut steps i = some p) :
    p < table.length := by
  cases steps with
  | zero =>
      cases h
      exact hi
  | succ steps =>
      obtain ⟨c, hc, _⟩ := climb_succ_eq_some_iff.mp h
      exact hbound c p (parent?_of_kept (mem_children.mp hc))

/-- A way goes through a position after each number of its steps. -/
theorem exists_climb_of_le {i p m n : Nat} (h : table.climb cut n i = some p) (hle : m ≤ n) :
    ∃ q, table.climb cut m i = some q ∧ table.climb cut (n - m) q = some p := by
  have hsplit : table.climb cut (m + (n - m)) i =
      (table.climb cut m i).bind (table.climb cut (n - m)) := climb_add m (n - m) i
  rw [Nat.add_sub_cancel' hle, h] at hsplit
  exact Option.bind_eq_some_iff.mp hsplit.symm

/-- A way that meets no position twice is shorter than the table. -/
theorem lt_length_of_distinct (hbound : ∀ i p, table.parent? i = some p → p < table.length)
    {i steps : Nat} (hi : i < table.length) (hway : ∀ a ≤ steps, ∃ p, table.climb cut a i = some p)
    (hdistinct : ∀ a ≤ steps, ∀ b ≤ steps, table.climb cut a i = table.climb cut b i → a = b) :
    steps < table.length := by
  have hnodup : ((List.range (steps + 1)).map fun a => table.climb cut a i).Nodup := by
    apply List.Nodup.map_on _ List.nodup_range
    intro a ha b hb
    exact hdistinct a (Nat.le_of_lt_succ (List.mem_range.mp ha)) b
      (Nat.le_of_lt_succ (List.mem_range.mp hb))
  have hsubset : ((List.range (steps + 1)).map fun a => table.climb cut a i) ⊆
      (List.range table.length).map some := by
    intro o ho
    obtain ⟨a, ha, rfl⟩ := List.mem_map.mp ho
    obtain ⟨p, hp⟩ := hway a (Nat.le_of_lt_succ (List.mem_range.mp ha))
    rw [hp]
    exact List.mem_map_of_mem (List.mem_range.mpr (climb_lt_length hbound hi hp))
  have hlength := (List.subperm_of_subset hnodup hsubset).length_le
  simp only [List.length_map, List.length_range] at hlength
  exact hlength

/-- On the way to a root no position is met twice, so the way is shorter than the table. -/
theorem lt_length_of_climb (hbound : ∀ i p, table.parent? i = some p → p < table.length)
    {i p steps : Nat} (hi : i < table.length) (h : table.climb cut steps i = some p)
    (hp : table.kept cut p = none) : steps < table.length := by
  apply lt_length_of_distinct hbound hi
  · intro a ha
    obtain ⟨q, hq, _⟩ := exists_climb_of_le h ha
    exact ⟨q, hq⟩
  · intro a ha b hb heq
    obtain ⟨x, hx, hrest⟩ := exists_climb_of_le h ha
    obtain ⟨y, hy, hrest'⟩ := exists_climb_of_le h hb
    have hxy : x = y := by
      rw [hx, hy] at heq
      exact Option.some.inj heq
    have hsteps := steps_unique hrest hp (hxy ▸ hrest') hp
    omega

/-! ## Cutting circles -/

/-- From where a root is found, one is reached. -/
theorem exists_climb_of_reachesRoot {fuel i : Nat} (h : table.reachesRoot cut fuel i = true) :
    ∃ steps p, table.climb cut steps i = some p ∧ table.kept cut p = none := by
  have here {i : Nat} (hi : i ∈ cut ∨ table.parent? i = none) :
      ∃ steps p, table.climb cut steps i = some p ∧ table.kept cut p = none := by
    refine ⟨0, i, rfl, ?_⟩
    rw [kept]
    rcases hi with hi | hi
    · rw [if_pos hi]
    · rw [hi, ite_self]
  induction fuel generalizing i with
  | zero =>
      rw [reachesRoot, Bool.or_eq_true, List.contains_iff_mem, Option.isNone_iff_eq_none] at h
      exact here h
  | succ fuel ih =>
      rw [reachesRoot, Bool.or_eq_true, List.contains_iff_mem] at h
      by_cases hcut : i ∈ cut
      · exact here (.inl hcut)
      · replace h := h.resolve_left hcut
        cases hparent : table.parent? i with
        | none => exact here (.inr hparent)
        | some p =>
            rw [hparent] at h
            obtain ⟨steps, root, hclimb, hroot⟩ := ih h
            refine ⟨steps + 1, root, ?_, hroot⟩
            rw [climb, kept, if_neg hcut, hparent, Option.bind_some, hclimb]

/-- A root that is reached in few enough steps is found. -/
theorem reachesRoot_of_climb {fuel steps i p : Nat} (h : table.climb cut steps i = some p)
    (hp : table.kept cut p = none) (hle : steps ≤ fuel) :
    table.reachesRoot cut fuel i = true := by
  apply Outline.reachesRoot_of_le _ hle
  induction steps generalizing i with
  | zero =>
      cases h
      rw [reachesRoot, Bool.or_eq_true, List.contains_iff_mem, Option.isNone_iff_eq_none]
      rw [kept] at hp
      split at hp
      · exact .inl ‹_›
      · exact .inr hp
  | succ steps ih =>
      rw [climb] at h
      obtain ⟨q, hq, hclimb⟩ := Option.bind_eq_some_iff.mp h
      rw [reachesRoot, parent?_of_kept hq, Bool.or_eq_true]
      exact .inr (ih hclimb (by omega))

/-- More cuts leave more positions within reach. -/
theorem reachesRoot_mono {cut' : List Nat} (hsubset : cut ⊆ cut') {fuel i : Nat}
    (h : table.reachesRoot cut fuel i = true) : table.reachesRoot cut' fuel i = true := by
  induction fuel generalizing i with
  | zero =>
      rw [reachesRoot, Bool.or_eq_true, List.contains_iff_mem] at h ⊢
      exact h.imp_left fun hi => hsubset hi
  | succ fuel ih =>
      rw [reachesRoot, Bool.or_eq_true, List.contains_iff_mem] at h ⊢
      refine h.imp (fun hi => hsubset hi) fun h => ?_
      split at h
      · rfl
      · exact ih h

/-- What going through some positions adds to the cuts: positions among these, in their order,
that were out of reach. After that all of them are within reach. -/
theorem exists_cuts_eq (table : ParentTable) (positions cut : List Nat) :
    ∃ more,
      positions.foldl
          (fun cut i => if table.reachesRoot cut table.length i then cut else cut ++ [i]) cut =
        cut ++ more ∧
      more.Sublist positions ∧
      (∀ i ∈ more, table.reachesRoot cut table.length i = false) ∧
      ∀ i ∈ positions, table.reachesRoot (cut ++ more) table.length i = true := by
  induction positions generalizing cut with
  | nil => exact ⟨[], by simp⟩
  | cons i positions ih =>
      rw [List.foldl_cons]
      split
      · rename_i hreach
        obtain ⟨more, hfold, hsublist, hcut, hall⟩ := ih cut
        refine ⟨more, hfold, hsublist.cons i, hcut, List.forall_mem_cons.mpr ⟨?_, hall⟩⟩
        exact reachesRoot_mono (List.subset_append_left _ _) hreach
      · rename_i hreach
        obtain ⟨more, hfold, hsublist, hcut, hall⟩ := ih (cut ++ [i])
        rw [List.append_assoc, List.singleton_append] at hfold hall
        refine ⟨i :: more, hfold, hsublist.cons_cons i, List.forall_mem_cons.mpr ⟨?_, ?_⟩,
          List.forall_mem_cons.mpr ⟨?_, hall⟩⟩
        · exact Bool.eq_false_iff.mpr hreach
        · intro j hj
          rw [Bool.eq_false_iff]
          intro hreach'
          have hmore := reachesRoot_mono (List.subset_append_left cut [i]) hreach'
          rw [hcut j hj] at hmore
          cases hmore
        · rw [reachesRoot.eq_def]
          split <;> simp

/-- From a position out of reach the way up never ends. -/
theorem exists_kept_of_reachesRoot_eq_false
    (hbound : ∀ i p, table.parent? i = some p → p < table.length) {i : Nat} (hi : i < table.length)
    (h : table.reachesRoot cut table.length i = false) (steps : Nat) :
    ∃ p q, table.climb cut steps i = some p ∧ table.kept cut p = some q := by
  have next {steps p : Nat} (hclimb : table.climb cut steps i = some p) :
      ∃ q, table.kept cut p = some q := by
    rw [← Option.ne_none_iff_exists']
    intro hroot
    have hlt := lt_length_of_climb hbound hi hclimb hroot
    rw [reachesRoot_of_climb hclimb hroot (Nat.le_of_lt hlt)] at h
    cases h
  induction steps with
  | zero =>
      obtain ⟨q, hq⟩ := next (show table.climb cut 0 i = some i from rfl)
      exact ⟨i, q, rfl, hq⟩
  | succ steps ih =>
      obtain ⟨p, q, hclimb, hkept⟩ := ih
      have hclimb' : table.climb cut (steps + 1) i = some q := by
        rw [climb_add, hclimb, Option.bind_some, climb_one, hkept]
      obtain ⟨r, hr⟩ := next hclimb'
      exact ⟨q, r, hclimb', hr⟩

/-! ## Growing the forest -/

theorem roots_foldr (body : Nat → PositionForest) (positions : List Nat) :
    (positions.foldr (fun i rest => .cons i (body i) rest) PositionForest.nil).roots =
      positions := by
  induction positions with
  | nil => rfl
  | cons i positions ih => rw [List.foldr_cons, PositionForest.roots, ih]

theorem positions_foldr (body : Nat → PositionForest) (positions : List Nat) :
    (positions.foldr (fun i rest => .cons i (body i) rest) PositionForest.nil).positions =
      positions.flatMap fun i => i :: (body i).positions := by
  induction positions with
  | nil => rfl
  | cons i positions ih =>
      rw [List.foldr_cons, PositionForest.positions, ih, List.flatMap_cons, List.cons_append]

theorem mem_families_foldr {body : Nat → PositionForest} {positions : List Nat}
    {family : Nat × List Nat}
    (h : family ∈ (positions.foldr (fun i rest => .cons i (body i) rest)
      PositionForest.nil).families) :
    ∃ i, family = (i, (body i).roots) ∨ family ∈ (body i).families := by
  induction positions with
  | nil => cases h
  | cons i positions ih =>
      rw [List.foldr_cons, PositionForest.families, List.mem_cons, List.mem_append] at h
      rcases h with h | h | h
      · exact ⟨i, .inl h⟩
      · exact ⟨i, .inr h⟩
      · exact ih h

theorem roots_grow {fuel : Nat} {positions : List Nat} (h : positions = [] ∨ 0 < fuel) :
    (table.grow cut fuel positions).roots = positions := by
  cases fuel with
  | zero =>
      obtain rfl : positions = [] := h.resolve_right (by omega)
      rfl
  | succ fuel => exact roots_foldr _ positions

/-- Directly under a position stand positions that belong under it, in their order. -/
theorem sublist_of_mem_families {fuel : Nat} {positions : List Nat} {family : Nat × List Nat}
    (h : family ∈ (table.grow cut fuel positions).families) :
    family.2.Sublist (table.children cut family.1) := by
  induction fuel generalizing positions with
  | zero => cases h
  | succ fuel ih =>
      obtain ⟨i, rfl | h⟩ := mem_families_foldr h
      · cases fuel with
        | zero => exact List.nil_sublist _
        | succ fuel =>
            rw [roots_grow (.inr (Nat.succ_pos fuel))]
      · exact ih h

/-- A forest has the positions from which few enough steps lead to one of its roots. -/
theorem mem_positions_grow {fuel i : Nat} {positions : List Nat} :
    i ∈ (table.grow cut fuel positions).positions ↔
      ∃ steps < fuel, ∃ p ∈ positions, table.climb cut steps i = some p := by
  induction fuel generalizing positions with
  | zero => simp [grow, PositionForest.positions]
  | succ fuel ih =>
      rw [grow, positions_foldr, List.mem_flatMap]
      constructor
      · rintro ⟨p, hp, hi⟩
        rcases List.mem_cons.mp hi with rfl | hi
        · exact ⟨0, Nat.succ_pos fuel, i, hp, rfl⟩
        · obtain ⟨steps, hsteps, c, hc, hclimb⟩ := ih.mp hi
          exact ⟨steps + 1, by omega, p, hp, climb_succ_eq_some_iff.mpr ⟨c, hc, hclimb⟩⟩
      · rintro ⟨steps, hsteps, p, hp, hclimb⟩
        refine ⟨p, hp, List.mem_cons.mpr ?_⟩
        cases steps with
        | zero => exact .inl (Option.some.inj hclimb)
        | succ steps =>
            obtain ⟨c, hc, hclimb⟩ := climb_succ_eq_some_iff.mp hclimb
            exact .inr (ih.mpr ⟨steps, by omega, c, hc, hclimb⟩)

/-- No position of the list lies below another one or below itself. -/
def Unrelated (table : ParentTable) (cut positions : List Nat) : Prop :=
  ∀ p ∈ positions, ∀ q ∈ positions, ∀ steps, table.climb cut (steps + 1) p ≠ some q

theorem Unrelated.children {positions : List Nat} (h : table.Unrelated cut positions) {p : Nat}
    (hp : p ∈ positions) : table.Unrelated cut (table.children cut p) := by
  intro c hc d hd steps hclimb
  -- The way from `c` up to `d` and on to `p` also starts with the step from `c` to `p`.
  have hway : table.climb cut (steps + 1 + 1) c = some p :=
    climb_succ_eq_some_iff.mpr ⟨d, hd, hclimb⟩
  rw [climb, mem_children.mp hc, Option.bind_some] at hway
  exact h p hp p hp steps hway

/-- Forests below two unrelated positions have no position in common. -/
theorem Unrelated.eq_of_climb {positions : List Nat} (h : table.Unrelated cut positions)
    {p q m n i : Nat} (hp : p ∈ positions) (hq : q ∈ positions)
    (hm : table.climb cut m i = some p) (hn : table.climb cut n i = some q) : p = q := by
  have not_lt {p q m n : Nat} (hp : p ∈ positions) (hq : q ∈ positions)
      (hm : table.climb cut m i = some p) (hn : table.climb cut n i = some q) : ¬ m < n := by
    intro hlt
    obtain ⟨steps, rfl⟩ := Nat.exists_eq_add_of_lt hlt
    rw [Nat.add_assoc, climb_add, hm, Option.bind_some] at hn
    exact h p hp q hq steps hn
  obtain rfl := Nat.le_antisymm (Nat.le_of_not_lt (not_lt hq hp hn hm))
    (Nat.le_of_not_lt (not_lt hp hq hm hn))
  rw [hm] at hn
  exact Option.some.inj hn

/-- A forest below unrelated positions has no position twice. -/
theorem nodup_positions_grow {fuel : Nat} {positions : List Nat} (hnodup : positions.Nodup)
    (h : table.Unrelated cut positions) : (table.grow cut fuel positions).positions.Nodup := by
  induction fuel generalizing positions with
  | zero => exact List.nodup_nil
  | succ fuel ih =>
      rw [grow, positions_foldr, List.nodup_flatMap]
      constructor
      · intro p hp
        refine List.nodup_cons.mpr ⟨fun hmem => ?_, ?_⟩
        · obtain ⟨steps, _, c, hc, hclimb⟩ := mem_positions_grow.mp hmem
          exact h p hp p hp steps (climb_succ_eq_some_iff.mpr ⟨c, hc, hclimb⟩)
        · exact ih (List.nodup_range.filter _) (h.children hp)
      · refine hnodup.imp_of_mem fun hp hq hne => ?_
        have hway {p i : Nat}
            (hi : i ∈ p :: (table.grow cut fuel (table.children cut p)).positions) :
            ∃ steps, table.climb cut steps i = some p := by
          rcases List.mem_cons.mp hi with rfl | hi
          · exact ⟨0, rfl⟩
          · obtain ⟨steps, _, c, hc, hclimb⟩ := mem_positions_grow.mp hi
            exact ⟨steps + 1, climb_succ_eq_some_iff.mpr ⟨c, hc, hclimb⟩⟩
        intro i hi hi'
        obtain ⟨m, hm⟩ := hway hi
        obtain ⟨n, hn⟩ := hway hi'
        exact hne (h.eq_of_climb hp hq hm hn)

end ParentTable

end BlockCode
