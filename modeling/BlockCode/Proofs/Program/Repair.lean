/- # What rebuilding repairs

In a list with distinct identifiers the parents can be wrong in two ways. An item may name a parent
that is no other item of the list, and items may name each other in a circle. Rebuilding leaves
every other item under the item that it names. Items of the first kind become roots where they
stand, and each circle is opened at the item of it that comes first.

More than that is cut off when an item that only hangs below a circle comes before all that is above
it. And what is cut off stands behind all other roots, whatever its place in the list.
-/

import Mathlib.Logic.Relation
import Mathlib.Order.WellFounded
import BlockCode.Proofs.Program.Circles
import BlockCode.Proofs.Program.Families

namespace BlockCode

namespace Outline

/-- The item names another item of the list as its parent. -/
def IsUnder (items : Outline) (item parent : OutlineItem) : Prop :=
  item ∈ items ∧ parent ∈ items ∧ parent.id ≠ item.id ∧ item.parent = some parent.id

instance (items : Outline) (item parent : OutlineItem) : Decidable (items.IsUnder item parent) :=
  inferInstanceAs (Decidable (_ ∧ _ ∧ _ ∧ _))

/-- Going up from the item, from parent to parent, leads to the other one. -/
def IsBelow (items : Outline) : OutlineItem → OutlineItem → Prop :=
  Relation.TransGen items.IsUnder

/-- Whether the item names no other item of the list as its parent. -/
def isRoot (items : Outline) (item : OutlineItem) : Bool :=
  items.all fun other => !decide (items.IsUnder item other)

/-- The way up from the item leads into a circle, and the item comes in the list before all that it
meets on the way. -/
def IsCutOff (items : Outline) (item : OutlineItem) : Prop :=
  (∃ member, items.IsBelow item member ∧ items.IsBelow member member) ∧
    ∀ above, items.IsBelow item above → items.idxOf item ≤ items.idxOf above

/-- The program is what the items describe when those in `cut` are cut off from their parents. -/
structure Repairs (items cut : Outline) (rebuilt : Rebuilt) : Prop where
  sublist : cut.Sublist items
  mem_cut : ∀ item ∈ items, item ∈ cut ↔ items.IsCutOff item
  /-- Of the items on one circle exactly one is cut off. -/
  once : ∀ item, items.IsBelow item item →
    ∃! member, member ∈ cut ∧ items.IsBelow item member ∧ items.IsBelow member item
  statements : rebuilt.program.statements.Perm (items.map OutlineItem.statement)
  /-- What names a parent and becomes a root is reported. -/
  orphans : rebuilt.orphans =
    ((items.filter fun item => items.isRoot item && item.parent.isSome) ++ cut).map OutlineItem.id
  /-- What is cut off comes behind the other roots. -/
  roots : rebuilt.program.nodes.map Node.head =
    (items.filter items.isRoot ++ cut).map OutlineItem.statement
  /-- Everything else stays under the item that it names, in list order. -/
  children : ∀ parent ∈ items, rebuilt.program.under (some parent.id) none =
    (items.filter fun item => decide (items.IsUnder item parent ∧ item ∉ cut)).map
      OutlineItem.statement

/-! ## Parents as items and as positions -/

theorem IsBelow.mem {items : Outline} {item above : OutlineItem} (h : items.IsBelow item above) :
    above ∈ items := by
  cases h with
  | single hunder => exact hunder.2.1
  | tail _ hunder => exact hunder.2.1

section Distinct

variable {items : Outline} (hnodup : (items.map OutlineItem.id).Nodup)

include hnodup

theorem parent?_eq_some_iff_isUnder {i p : Nat} {item : OutlineItem}
    (hitem : items[i]? = some item) :
    ParentTable.parent? items.parentPositions i = some p ↔
      ∃ parent, items[p]? = some parent ∧ items.IsUnder item parent := by
  rw [parent?_parentPositions, parentPosition?_eq_some_iff hnodup]
  constructor
  · rintro ⟨hne, _, parent, hitem', hparent, hnames⟩
    obtain rfl := Option.some.inj (hitem.symm.trans hitem')
    refine ⟨parent, hparent, List.mem_of_getElem? hitem, List.mem_of_getElem? hparent, ?_, hnames⟩
    exact fun hid => hne (eq_of_id_eq hnodup hparent hitem hid)
  · rintro ⟨parent, hparent, _, _, hne, hnames⟩
    refine ⟨?_, item, parent, hitem, hparent, hnames⟩
    rintro rfl
    obtain rfl := Option.some.inj (hitem.symm.trans hparent)
    exact hne rfl

theorem isBelow_iff {i : Nat} {item above : OutlineItem} (hitem : items[i]? = some item) :
    items.IsBelow item above ↔
      ∃ steps p, ParentTable.climb items.parentPositions [] (steps + 1) i = some p ∧
        items[p]? = some above := by
  constructor
  · intro h
    induction h with
    | single hunder =>
        obtain ⟨p, hp⟩ := List.mem_iff_getElem?.mp hunder.2.1
        refine ⟨0, p, ?_, hp⟩
        rw [Nat.zero_add, ParentTable.climb_one, ParentTable.kept_nil]
        exact (parent?_eq_some_iff_isUnder hnodup hitem).mpr ⟨_, hp, hunder⟩
    | tail _ hunder ih =>
        obtain ⟨steps, p, hclimb, hp⟩ := ih
        obtain ⟨q, hq⟩ := List.mem_iff_getElem?.mp hunder.2.1
        refine ⟨steps + 1, q, ?_, hq⟩
        refine ParentTable.climb_succ_eq_some_iff.mpr ⟨p, ParentTable.mem_children.mpr ?_, hclimb⟩
        rw [ParentTable.kept_nil]
        exact (parent?_eq_some_iff_isUnder hnodup hp).mpr ⟨_, hq, hunder⟩
  · rintro ⟨steps, p, hclimb, hp⟩
    induction steps generalizing p above with
    | zero =>
        rw [Nat.zero_add, ParentTable.climb_one, ParentTable.kept_nil,
          parent?_eq_some_iff_isUnder hnodup hitem] at hclimb
        obtain ⟨parent, hparent, hunder⟩ := hclimb
        obtain rfl := Option.some.inj (hp.symm.trans hparent)
        exact .single hunder
    | succ steps ih =>
        obtain ⟨q, hq, hclimb⟩ := ParentTable.climb_succ_eq_some_iff.mp hclimb
        have hkept := ParentTable.mem_children.mp hq
        rw [ParentTable.kept_nil] at hkept
        have hlt := ParentTable.lt_length_of_parent? hkept
        rw [length_parentPositions] at hlt
        have hitem' := List.getElem?_eq_getElem hlt
        obtain ⟨parent, hparent, hunder⟩ := (parent?_eq_some_iff_isUnder hnodup hitem').mp hkept
        obtain rfl := Option.some.inj (hp.symm.trans hparent)
        exact .tail (ih q hclimb hitem') hunder

theorem idxOf_eq {i : Nat} {item : OutlineItem} (hitem : items[i]? = some item) :
    items.idxOf item = i := by
  obtain ⟨hlt, rfl⟩ := List.getElem?_eq_some_iff.mp hitem
  exact (List.Nodup.of_map _ hnodup).idxOf_getElem i hlt

/-- A position is cut off exactly when its item comes before all above it and is below a circle. -/
theorem mem_cuts_iff_isCutOff {i : Nat} {item : OutlineItem} (hitem : items[i]? = some item) :
    i ∈ ParentTable.cuts items.parentPositions ↔ items.IsCutOff item := by
  have hlt : i < items.parentPositions.length := by
    rw [length_parentPositions]
    exact (List.getElem?_eq_some_iff.mp hitem).1
  have getElem_of_climb {steps p : Nat}
      (h : ParentTable.climb items.parentPositions [] steps i = some p) :
      ∃ above, items[p]? = some above := by
    have hp := ParentTable.climb_lt_length lt_length_of_parent?_parentPositions hlt h
    rw [length_parentPositions] at hp
    exact ⟨_, List.getElem?_eq_getElem hp⟩
  rw [ParentTable.mem_cuts_iff lt_length_of_parent?_parentPositions, and_iff_right hlt]
  constructor
  · intro hway
    obtain ⟨steps, round, p, hclimb, hround⟩ := ParentTable.exists_circle
      lt_length_of_parent?_parentPositions hlt fun steps => (hway steps).imp fun _ h => h.1
    obtain ⟨member, hmember⟩ := getElem_of_climb hclimb
    refine ⟨⟨member, (isBelow_iff hnodup hitem).mpr ⟨steps + round, p, ?_, hmember⟩,
      (isBelow_iff hnodup hmember).mpr ⟨round, p, hround, hmember⟩⟩, fun above habove => ?_⟩
    · rw [Nat.add_assoc, ParentTable.climb_add, hclimb, Option.bind_some, hround]
    · obtain ⟨steps, q, hclimb, hq⟩ := (isBelow_iff hnodup hitem).mp habove
      obtain ⟨q', hq', hle⟩ := hway (steps + 1)
      obtain rfl := Option.some.inj (hclimb.symm.trans hq')
      rwa [idxOf_eq hnodup hitem, idxOf_eq hnodup hq]
  · rintro ⟨⟨member, hmember, hround⟩, hfirst⟩ steps
    obtain ⟨more, p, hclimb, hp⟩ := (isBelow_iff hnodup hitem).mp hmember
    obtain ⟨round, p', hround, hp'⟩ := (isBelow_iff hnodup hp).mp hround
    obtain rfl := eq_of_id_eq hnodup hp hp' rfl
    obtain ⟨q, hq⟩ := ParentTable.exists_climb_of_circle hclimb hround steps
    refine ⟨q, hq, ?_⟩
    cases steps with
    | zero => exact Nat.le_of_eq (Option.some.inj hq)
    | succ steps =>
        obtain ⟨above, habove⟩ := getElem_of_climb hq
        have hle := hfirst above ((isBelow_iff hnodup hitem).mpr ⟨steps, q, hq, habove⟩)
        rwa [idxOf_eq hnodup hitem, idxOf_eq hnodup habove] at hle

/-! ## Circles -/

/-- An item names at most one other. -/
theorem IsUnder.eq {item parent parent' : OutlineItem} (h : items.IsUnder item parent)
    (h' : items.IsUnder item parent') : parent = parent' := by
  obtain ⟨_, hparent, _, hnames⟩ := h
  obtain ⟨_, hparent', _, hnames'⟩ := h'
  have hid : parent.id = parent'.id := Option.some.inj (hnames.symm.trans hnames')
  exact List.inj_on_of_nodup_map hnodup hparent hparent' hid

/-- All that is above an item on a circle is on the same circle. -/
theorem IsBelow.symm_of_circle {item above : OutlineItem} (hcircle : items.IsBelow item item)
    (h : items.IsBelow item above) : items.IsBelow above item := by
  have next {other parent : OutlineItem} (hunder : items.IsUnder other parent)
      (hback : items.IsBelow other item) : items.IsBelow parent item := by
    obtain ⟨first, hfirst, hrest⟩ := Relation.TransGen.head'_iff.mp hback
    obtain rfl := IsUnder.eq hnodup hunder hfirst
    exact Relation.TransGen.trans_right hrest hcircle
  induction h with
  | single hunder => exact next hunder hcircle
  | tail _ hunder ih => exact next hunder ih

/-- On each circle exactly one item is cut off, the first one. -/
theorem existsUnique_isCutOff {item : OutlineItem} (hcircle : items.IsBelow item item) :
    ∃! member, items.IsCutOff member ∧ items.IsBelow item member ∧ items.IsBelow member item := by
  obtain ⟨member, hmember, hmin⟩ := (measure items.idxOf).wf.has_min
    {member | items.IsBelow item member} ⟨item, hcircle⟩
  have hback := IsBelow.symm_of_circle hnodup hcircle hmember
  have hfirst : ∀ above, items.IsBelow item above → items.idxOf member ≤ items.idxOf above :=
    fun above habove => Nat.le_of_not_lt (hmin above habove)
  refine ⟨member, ⟨⟨⟨item, hback, hcircle⟩, fun above habove => ?_⟩, hmember, hback⟩, ?_⟩
  · exact hfirst above (hmember.trans habove)
  · rintro other ⟨⟨_, hother⟩, habove, hbelow⟩
    have hidx := Nat.le_antisymm (hother member (hbelow.trans hmember)) (hfirst other habove)
    exact (List.idxOf_inj habove.mem).mp hidx

/-! ## The parts of the repaired program -/

theorem mem_itemsAt_iff {positions : List Nat} {i : Nat} {item : OutlineItem}
    (hitem : items[i]? = some item) : item ∈ items.itemsAt positions ↔ i ∈ positions := by
  rw [itemsAt, List.mem_filterMap]
  constructor
  · rintro ⟨j, hj, hitem'⟩
    rwa [eq_of_id_eq hnodup hitem hitem' rfl]
  · intro hi
    exact ⟨i, hi, hitem⟩

theorem isNone_parent?_eq_isRoot {i : Nat} {item : OutlineItem} (hitem : items[i]? = some item) :
    (ParentTable.parent? items.parentPositions i).isNone = items.isRoot item := by
  rw [Bool.eq_iff_iff, Option.isNone_iff_eq_none, Option.eq_none_iff_forall_ne_some, isRoot,
    List.all_eq_true]
  constructor
  · intro hnone other hother
    obtain ⟨p, hp⟩ := List.mem_iff_getElem?.mp hother
    rw [Bool.not_eq_true', decide_eq_false_iff_not]
    intro hunder
    exact hnone p ((parent?_eq_some_iff_isUnder hnodup hitem).mpr ⟨other, hp, hunder⟩)
  · intro hall p hp
    obtain ⟨parent, hparent, hunder⟩ := (parent?_eq_some_iff_isUnder hnodup hitem).mp hp
    have hnot := hall parent (List.mem_of_getElem? hparent)
    rw [Bool.not_eq_true', decide_eq_false_iff_not] at hnot
    exact hnot hunder

theorem itemsAt_roots :
    items.itemsAt (ParentTable.roots items.parentPositions) = items.filter items.isRoot := by
  rw [ParentTable.roots, length_parentPositions]
  exact itemsAt_filter_range fun i item hitem => isNone_parent?_eq_isRoot hnodup hitem

theorem itemsAt_strays :
    items.itemsAt ((ParentTable.roots items.parentPositions).filter fun i =>
        (items[i]?.bind OutlineItem.parent).isSome) =
      items.filter fun item => items.isRoot item && item.parent.isSome := by
  rw [ParentTable.roots, length_parentPositions, List.filter_filter]
  apply itemsAt_filter_range
  intro i item hitem
  rw [hitem, isNone_parent?_eq_isRoot hnodup hitem, Option.bind_some, Bool.and_comm]

theorem itemsAt_children {i : Nat} {parent : OutlineItem} (hparent : items[i]? = some parent) :
    items.itemsAt (ParentTable.children items.parentPositions
        (ParentTable.cuts items.parentPositions) i) =
      items.filter fun item => decide (items.IsUnder item parent ∧
        item ∉ items.itemsAt (ParentTable.cuts items.parentPositions)) := by
  rw [ParentTable.children, length_parentPositions]
  apply itemsAt_filter_range
  intro j item hitem
  have hunder : ParentTable.parent? items.parentPositions j = some i ↔
      items.IsUnder item parent := by
    rw [parent?_eq_some_iff_isUnder hnodup hitem, hparent]
    simp
  rw [Bool.eq_iff_iff, Bool.and_eq_true, beq_iff_eq, Bool.not_eq_true', decide_eq_true_iff, hunder,
    mem_itemsAt_iff hnodup hitem, ← Bool.not_eq_true, List.contains_iff_mem]

end Distinct

/-- Rebuilding from items with distinct identifiers loses none of them, and each that names another
stays under it unless the way up from it leads into a circle and it comes before all that is above
it. On each circle this is one item. What is cut off for it comes behind the other roots, which are
in list order, and it is reported with the items that name a parent that is no other item. -/
theorem rebuild_repairs {items : Outline} (hnodup : (items.map OutlineItem.id).Nodup) :
    ∃ cut, items.Repairs cut items.rebuild := by
  have mem_cut {item : OutlineItem} (hmem : item ∈ items) :
      item ∈ items.itemsAt (ParentTable.cuts items.parentPositions) ↔ items.IsCutOff item := by
    obtain ⟨i, hitem⟩ := List.mem_iff_getElem?.mp hmem
    rw [mem_itemsAt_iff hnodup hitem, mem_cuts_iff_isCutOff hnodup hitem]
  refine ⟨items.itemsAt (ParentTable.cuts items.parentPositions), ?_, fun item => mem_cut, ?_,
    items.statements_rebuild_perm, ?_, ?_, ?_⟩
  · have hsublist := items.cutsCircles_cuts.sublist.filterMap fun i => items[i]?
    rwa [← itemsAt, ← itemsAt, itemsAt_range] at hsublist
  · intro item hcircle
    obtain ⟨member, ⟨hcut, habove, hbelow⟩, hunique⟩ := existsUnique_isCutOff hnodup hcircle
    refine ⟨member, ⟨(mem_cut habove.mem).mpr hcut, habove, hbelow⟩, ?_⟩
    rintro other ⟨hcut', habove', hbelow'⟩
    exact hunique other ⟨(mem_cut habove'.mem).mp hcut', habove', hbelow'⟩
  · rw [← itemsAt_strays hnodup, rebuild, itemsAt, itemsAt, ← List.filterMap_append,
      List.map_filterMap]
  · rw [nodes_rebuild, ← itemsAt_roots hnodup, itemsAt, List.filterMap_append]
    rfl
  · intro parent hmem
    obtain ⟨i, hparent⟩ := List.mem_iff_getElem?.mp hmem
    rw [under_rebuild hnodup hparent, itemsAt_children hnodup hparent]

/-- Two items that name each other, one below them that comes first, and a root that comes last. -/
def belowCircle : Outline := [
  ⟨⟨"low", .output, ["1"], false, false⟩, some "a", 2, 0⟩,
  ⟨⟨"a", .ifThen, ["x"], false, false⟩, some "b", 1, 0⟩,
  ⟨⟨"b", .ifThen, ["y"], false, false⟩, some "a", 1, 1⟩,
  ⟨⟨"root", .output, ["2"], false, false⟩, none, 0, 0⟩]

/-- Both the item below the circle and the first one on it are cut off. -/
theorem rebuild_repairs_belowCircle :
    (belowCircle.map OutlineItem.id).Nodup ∧
      ∃ cut, belowCircle.Repairs cut belowCircle.rebuild ∧
        cut.map OutlineItem.id = ["low", "a"] := by
  have hnodup : (belowCircle.map OutlineItem.id).Nodup := by decide
  obtain ⟨cut, h⟩ := rebuild_repairs hnodup
  have hstrays : (belowCircle.filter fun item =>
      belowCircle.isRoot item && item.parent.isSome) = [] := by decide
  have horphans : belowCircle.rebuild.orphans = ["low", "a"] := by decide
  have hcut := h.orphans
  rw [hstrays, List.nil_append, horphans] at hcut
  exact ⟨hnodup, cut, h, hcut.symm⟩

/-- An item that names another one and is on no circle can be cut off, beside the item that opens
the circle. And a root that comes last in the list comes first in the program. -/
theorem rebuild_cuts_belowCircle :
    (belowCircle.map OutlineItem.id).Nodup ∧
      (∃ item parent, belowCircle.IsUnder item parent ∧ ¬ belowCircle.IsBelow item item ∧
        belowCircle.IsBelow parent parent ∧
        item.id ∈ belowCircle.rebuild.orphans ∧ parent.id ∈ belowCircle.rebuild.orphans) ∧
      belowCircle.rebuild.program.nodes.map (fun node => node.head.id) = ["root", "low", "a"] := by
  refine ⟨by decide, ⟨⟨⟨"low", .output, ["1"], false, false⟩, some "a", 2, 0⟩,
    ⟨⟨"a", .ifThen, ["x"], false, false⟩, some "b", 1, 0⟩, by decide, fun hcircle => ?_, ?_,
    by decide, by decide⟩, by decide⟩
  · obtain ⟨child, _, hunder⟩ := Relation.TransGen.tail'_iff.mp hcircle
    have hnone : ∀ child ∈ belowCircle, child.parent ≠ some "low" := by decide
    exact hnone child hunder.1 hunder.2.2.2
  · have hup : belowCircle.IsUnder ⟨⟨"a", .ifThen, ["x"], false, false⟩, some "b", 1, 0⟩
        ⟨⟨"b", .ifThen, ["y"], false, false⟩, some "a", 1, 1⟩ := by decide
    exact .tail (.single hup) (by decide)

end Outline

end BlockCode
