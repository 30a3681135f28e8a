/- # Rebuilding from any list

Rebuilding loses no item and repeats none, whatever the list looks like: identifiers may be
repeated, and parents may be missing or run in circles. Since identifiers do not tell items apart,
positions do. There is a forest that has each position of the list once, and with the statements
of the items put in their places it is the program.
-/

import BlockCode.Proofs.Program.Forest

namespace BlockCode

/-- The block with the statement of an item in the place of each position. -/
def PositionForest.block (items : Outline) : PositionForest → Block
  | .nil => .nil
  | .cons i body next =>
    match items[i]? with
    | none => next.block items
    | some item => .cons item.statement (body.block items) (next.block items)

namespace Outline

/-- The items at the positions. -/
def itemsAt (items : Outline) (positions : List Nat) : Outline :=
  positions.filterMap fun i => items[i]?

/-- The item at position `i` names the item at position `p` as its parent, which is the last one
of its identifier. -/
def Names (items : Outline) (i p : Nat) : Prop :=
  ∃ item parent, items[i]? = some item ∧ items[p]? = some parent ∧
    item.parent = some parent.id ∧
    ∀ q other, items[q]? = some other → other.id = parent.id → q ≤ p

/-- What is rebuilt from the items is the forest of their positions, with nothing lost, nothing
repeated and nothing moved without need. -/
structure Recovers (items : Outline) (forest : PositionForest) (rebuilt : Rebuilt) : Prop where
  program : rebuilt.program = forest.block items
  /-- Every position occurs, and each occurs once. -/
  complete : forest.positions.Perm (List.range items.length)
  /-- What stands directly under one position stands there in the order of the list. -/
  ordered : ∀ family ∈ forest.families, family.2.Pairwise (· < ·)
  /-- What stands directly under a position names it. -/
  placed : ∀ family ∈ forest.families, ∀ i ∈ family.2, items.Names i family.1
  /-- The roots that name a parent are reported, each once. -/
  orphans : rebuilt.orphans =
    ((items.itemsAt forest.roots).filter fun item => item.parent.isSome).map OutlineItem.id
  /-- A root that names another item as its parent is one from which the way up never ends. -/
  endless : ∀ i ∈ forest.roots, ∀ p, p ≠ i → items.Names i p →
    ∃ way : Nat → Nat, way 0 = i ∧ ∀ n, items.Names (way n) (way (n + 1))

theorem lastPosition?_spec {items : Outline} {id : String} {p : Nat}
    (h : items.lastPosition? id = some p) :
    ∃ parent, items[p]? = some parent ∧ parent.id = id ∧
      ∀ q other, items[q]? = some other → other.id = id → q ≤ p := by
  obtain ⟨j, hj, rfl⟩ := Option.map_eq_some_iff.mp h
  obtain ⟨hlt, hid, hbefore⟩ := List.findIdx?_eq_some_iff_getElem.mp hj
  rw [List.length_reverse] at hlt
  rw [List.getElem_reverse] at hid
  refine ⟨_, List.getElem?_eq_getElem (by omega), by simpa using hid, ?_⟩
  intro q other hother hother'
  obtain ⟨hq, rfl⟩ := List.getElem?_eq_some_iff.mp hother
  by_contra hle
  -- Items behind the found one come before it in the reversed list.
  apply hbefore (items.length - 1 - q) (by omega)
  rw [List.getElem_reverse]
  have hindex : items.length - 1 - (items.length - 1 - q) = q := by omega
  simpa only [hindex, beq_iff_eq] using hother'

theorem lastPosition?_of_mem {items : Outline} {id : String} {p : Nat} {parent : OutlineItem}
    (hp : items[p]? = some parent) (hid : parent.id = id)
    (hlast : ∀ q other, items[q]? = some other → other.id = id → q ≤ p) :
    items.lastPosition? id = some p := by
  cases h : items.lastPosition? id with
  | none =>
      rw [lastPosition?, Option.map_eq_none_iff, List.findIdx?_eq_none_iff] at h
      have hne := h parent (List.mem_reverse.mpr (List.mem_of_getElem? hp))
      simp [hid] at hne
  | some q =>
      obtain ⟨other, hother, hid', hlast'⟩ := lastPosition?_spec h
      have hle := hlast q other hother hid'
      have hle' := hlast' p parent hp hid
      rw [Nat.le_antisymm hle hle']

/-- An item has a parent in the list exactly when it names another item. -/
theorem parentPosition?_eq_some_iff_names {items : Outline} {i p : Nat} :
    items.parentPosition? i = some p ↔ p ≠ i ∧ items.Names i p := by
  rw [parentPosition?]
  constructor
  · intro h
    obtain ⟨item, hitem, h⟩ := Option.bind_eq_some_iff.mp h
    obtain ⟨id, hparent, h⟩ := Option.bind_eq_some_iff.mp h
    obtain ⟨q, hq, h⟩ := Option.bind_eq_some_iff.mp h
    obtain ⟨parent, hparent', hid, hlast⟩ := lastPosition?_spec hq
    split at h
    · cases h
    · next hne =>
      cases h
      subst hid
      exact ⟨by simpa using hne, item, parent, hitem, hparent', hparent, hlast⟩
  · rintro ⟨hne, item, parent, hitem, hp, hparent, hlast⟩
    simp [hitem, hparent, lastPosition?_of_mem hp rfl hlast, hne]

theorem kept_eq_some {items : Outline} {cut : List Nat} {i p : Nat}
    (h : ParentTable.kept items.parentPositions cut i = some p) : items.Names i p := by
  have hparent := ParentTable.parent?_of_kept h
  rw [parent?_parentPositions] at hparent
  exact (parentPosition?_eq_some_iff_names.mp hparent).2

theorem length_parentPositions (items : Outline) :
    items.parentPositions.length = items.length := by
  rw [parentPositions, List.length_map, List.length_range]

/-- Parents are positions of the list. -/
theorem lt_length_of_parent?_parentPositions {items : Outline} (i p : Nat)
    (h : ParentTable.parent? items.parentPositions i = some p) :
    p < items.parentPositions.length := by
  rw [parent?_parentPositions] at h
  obtain ⟨_, _, parent, _, hp, _⟩ := parentPosition?_eq_some_iff_names.mp h
  rw [length_parentPositions]
  exact (List.getElem?_eq_some_iff.mp hp).1

/-- A program is assembled as the forest of its positions grows. -/
theorem assemble_eq_block (items : Outline) (table : ParentTable) (cut : List Nat) (fuel : Nat)
    (positions : List Nat) :
    items.assemble table cut fuel positions = (table.grow cut fuel positions).block items := by
  induction fuel generalizing positions with
  | zero => rfl
  | succ fuel ih =>
      rw [assemble, ParentTable.grow]
      induction positions with
      | nil => rfl
      | cons i positions ih' =>
          rw [List.foldr_cons, List.foldr_cons, PositionForest.block]
          cases items[i]? with
          | none => exact ih'
          | some item =>
              dsimp only
              rw [← ih', ih]

/-- What is known of the positions that are cut off. -/
structure CutsCircles (items : Outline) (cut : List Nat) : Prop where
  sublist : cut.Sublist (List.range items.length)
  outOfReach : ∀ i ∈ cut,
    ParentTable.reachesRoot items.parentPositions [] items.length i = false
  withinReach : ∀ i < items.length,
    ParentTable.reachesRoot items.parentPositions cut items.length i = true

theorem cutsCircles_cuts (items : Outline) :
    items.CutsCircles (ParentTable.cuts items.parentPositions) := by
  obtain ⟨more, hfold, hsublist, hcut, hall⟩ := ParentTable.exists_cuts_eq items.parentPositions
    (List.range items.parentPositions.length) []
  rw [List.nil_append] at hfold hall
  rw [length_parentPositions] at hsublist hcut hall
  rw [ParentTable.cuts, hfold]
  exact ⟨hsublist, hcut, fun i hi => hall i (List.mem_range.mpr hi)⟩

/-- The roots of the forest are the positions without a parent that is kept. -/
theorem mem_roots_iff {items : Outline} {cut : List Nat} {i : Nat} (hi : i < items.length) :
    i ∈ ParentTable.roots items.parentPositions ++ cut ↔
      ParentTable.kept items.parentPositions cut i = none := by
  rw [List.mem_append, ParentTable.roots, List.mem_filter, List.mem_range, length_parentPositions,
    and_iff_right hi, Option.isNone_iff_eq_none, ParentTable.kept]
  by_cases hcut : i ∈ cut
  · simp [hcut]
  · simp [hcut]

section Cut

variable {items : Outline} {cut : List Nat} (h : items.CutsCircles cut)

include h

/-- What is cut off has a parent. -/
theorem CutsCircles.exists_parent {i : Nat} (hi : i ∈ cut) :
    ∃ p, ParentTable.parent? items.parentPositions i = some p := by
  rw [← Option.ne_none_iff_exists']
  intro hnone
  have hclimb : ParentTable.climb items.parentPositions [] 0 i = some i := rfl
  have hroot : ParentTable.kept items.parentPositions [] i = none := by
    rw [ParentTable.kept, hnone, ite_self]
  have hfound := ParentTable.reachesRoot_of_climb hclimb hroot (Nat.zero_le items.length)
  rw [h.outOfReach i hi] at hfound
  cases hfound

theorem CutsCircles.lt_length {i : Nat}
    (hi : i ∈ ParentTable.roots items.parentPositions ++ cut) : i < items.length := by
  rcases List.mem_append.mp hi with hi | hi
  · rw [ParentTable.roots, List.mem_filter, List.mem_range, length_parentPositions] at hi
    exact hi.1
  · exact List.mem_range.mp (h.sublist.subset hi)

theorem CutsCircles.nodup_roots :
    (ParentTable.roots items.parentPositions ++ cut).Nodup := by
  refine List.nodup_append.mpr ⟨List.nodup_range.filter _, List.nodup_range.sublist h.sublist, ?_⟩
  rintro i hi j hj rfl
  obtain ⟨p, hp⟩ := h.exists_parent hj
  have hnone := (List.mem_filter.mp hi).2
  rw [hp] at hnone
  cases hnone

theorem CutsCircles.unrelated : ParentTable.Unrelated items.parentPositions cut
    (ParentTable.roots items.parentPositions ++ cut) := by
  intro p hp q _ steps hclimb
  have hroot := (mem_roots_iff (h.lt_length hp)).mp hp
  rw [ParentTable.climb_eq_none hroot (Nat.succ_pos steps)] at hclimb
  cases hclimb

/-- The forest that grows from the roots has every position once. -/
theorem CutsCircles.positions_perm :
    (ParentTable.grow items.parentPositions cut items.length
      (ParentTable.roots items.parentPositions ++ cut)).positions.Perm
      (List.range items.length) := by
  rw [List.perm_ext_iff_of_nodup (ParentTable.nodup_positions_grow h.nodup_roots h.unrelated)
    List.nodup_range]
  intro i
  rw [List.mem_range, ParentTable.mem_positions_grow]
  constructor
  · rintro ⟨steps, _, p, hp, hclimb⟩
    cases steps with
    | zero =>
        cases hclimb
        exact h.lt_length hp
    | succ steps =>
        rw [ParentTable.climb] at hclimb
        obtain ⟨q, hq, _⟩ := Option.bind_eq_some_iff.mp hclimb
        rw [← length_parentPositions]
        exact ParentTable.lt_length_of_parent? (ParentTable.parent?_of_kept hq)
  · intro hi
    obtain ⟨steps, p, hclimb, hroot⟩ :=
      ParentTable.exists_climb_of_reachesRoot (h.withinReach i hi)
    have hsteps : steps < items.length := by
      rw [← length_parentPositions] at hi ⊢
      exact ParentTable.lt_length_of_climb lt_length_of_parent?_parentPositions hi hclimb hroot
    have hp : p < items.length := by
      rw [← length_parentPositions] at hi ⊢
      exact ParentTable.climb_lt_length lt_length_of_parent?_parentPositions hi hclimb
    exact ⟨steps, hsteps, p, (mem_roots_iff hp).mpr hroot, hclimb⟩

/-- What is cut off names a parent and is reported with the roots of the list that name one. -/
theorem CutsCircles.orphans_eq :
    ((ParentTable.roots items.parentPositions).filter (fun i =>
        (items[i]?.bind OutlineItem.parent).isSome) ++ cut).filterMap
        (fun i => items[i]?.map OutlineItem.id) =
      ((items.itemsAt (ParentTable.roots items.parentPositions ++ cut)).filter fun item =>
        item.parent.isSome).map OutlineItem.id := by
  have hcut : cut.filter (fun i => (items[i]?.bind OutlineItem.parent).isSome) = cut := by
    rw [List.filter_eq_self]
    intro i hi
    obtain ⟨p, hp⟩ := h.exists_parent hi
    rw [parent?_parentPositions] at hp
    obtain ⟨_, item, _, hitem, _, hparent, _⟩ := parentPosition?_eq_some_iff_names.mp hp
    rw [hitem, Option.bind_some, hparent, Option.isSome_some]
  have hitems (positions : List Nat) :
      (positions.filter fun i => (items[i]?.bind OutlineItem.parent).isSome).filterMap
          (fun i => items[i]?.map OutlineItem.id) =
        ((items.itemsAt positions).filter fun item => item.parent.isSome).map OutlineItem.id := by
    induction positions with
    | nil => rfl
    | cons i positions ih =>
        rw [itemsAt] at ih ⊢
        cases hitem : items[i]? with
        | none => simpa [hitem] using ih
        | some item => cases hparent : item.parent <;> simpa [hitem, hparent] using ih
  rw [← hitems, List.filter_append, hcut]

/-- The way up from a position that was cut off never ends. -/
theorem CutsCircles.exists_way {i : Nat} (hi : i ∈ cut) :
    ∃ way : Nat → Nat, way 0 = i ∧ ∀ n, items.Names (way n) (way (n + 1)) := by
  have hlt : i < items.parentPositions.length := by
    rw [length_parentPositions]
    exact List.mem_range.mp (h.sublist.subset hi)
  have hreach := h.outOfReach i hi
  rw [← length_parentPositions] at hreach
  have hway (n : Nat) := ParentTable.exists_kept_of_reachesRoot_eq_false
    lt_length_of_parent?_parentPositions hlt hreach n
  refine ⟨fun n => (ParentTable.climb items.parentPositions [] n i).getD i, rfl, fun n => ?_⟩
  obtain ⟨p, q, hclimb, hkept⟩ := hway n
  have hclimb' : ParentTable.climb items.parentPositions [] (n + 1) i = some q :=
    ParentTable.climb_succ_eq_some_iff.mpr ⟨p, ParentTable.mem_children.mpr hkept, hclimb⟩
  dsimp only
  rw [hclimb, hclimb']
  exact kept_eq_some hkept

end Cut

/-- Rebuilding gives a program from any list of items. Its statements are those of the items, each
once, and its shape is the one that the parents describe, except that circles of parents are cut.
What becomes a root although it names a parent is reported. -/
theorem rebuild_recovers (items : Outline) :
    ∃ forest : PositionForest, items.Recovers forest items.rebuild := by
  have hcuts := items.cutsCircles_cuts
  have hroots : (ParentTable.grow items.parentPositions (ParentTable.cuts items.parentPositions)
      items.length (ParentTable.roots items.parentPositions
        ++ ParentTable.cuts items.parentPositions)).roots =
      ParentTable.roots items.parentPositions ++ ParentTable.cuts items.parentPositions := by
    apply ParentTable.roots_grow
    rcases Nat.eq_zero_or_pos items.length with hlength | hlength
    · left
      rw [List.eq_nil_iff_forall_not_mem]
      intro i hi
      have hlt := hcuts.lt_length hi
      omega
    · exact .inr hlength
  refine ⟨_, items.assemble_eq_block .., hcuts.positions_perm, ?_, ?_, ?_, ?_⟩
  · intro family hfamily
    exact (List.pairwise_lt_range.filter _).sublist (ParentTable.sublist_of_mem_families hfamily)
  · intro family hfamily i hi
    exact kept_eq_some (ParentTable.mem_children.mp
      ((ParentTable.sublist_of_mem_families hfamily).subset hi))
  · rw [hroots]
    exact hcuts.orphans_eq
  · intro i hi p hne hnames
    rw [hroots] at hi
    apply hcuts.exists_way
    have hnone := (mem_roots_iff (hcuts.lt_length hi)).mp hi
    rw [ParentTable.kept] at hnone
    split at hnone
    · assumption
    · rw [parent?_parentPositions, parentPosition?_eq_some_iff_names.mpr ⟨hne, hnames⟩] at hnone
      cases hnone

/-- Two statements that name each other as parent: the first becomes a root. -/
example :
    rebuild [⟨⟨"a", .ifThen, ["x"], false, false⟩, some "b", 1, 0⟩,
        ⟨⟨"b", .ifThen, ["y"], false, false⟩, some "a", 1, 0⟩] =
      ⟨.cons ⟨"a", .ifThen, ["x"], false, false⟩
        (.cons ⟨"b", .ifThen, ["y"], false, false⟩ .nil .nil) .nil, ["a"]⟩ := by
  decide

end Outline

end BlockCode
