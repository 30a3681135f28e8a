/- # Dropping a statement where it is

A statement dragged onto its own place without moving sideways is shown where it stands. Its depth
lies between the bounds that the visible items set, because the outline skips no level on the way
down and nothing visible is nested under the dragged statement. The parent found at that depth is
its own. Dropping it there writes into the list what the list says already.
-/

import Mathlib.Data.List.InsertIdx
import BlockCode.Proofs.Program.Hiding
import BlockCode.Proofs.Program.Landing

namespace BlockCode

/-! ## Lists on which nothing moves -/

namespace Outline

theorem reorder_self (items : Outline) (i : Nat) : items.reorder i i = items := by
  cases hitem : items[i]? with
  | none => rw [reorder, hitem]
  | some item =>
      obtain ⟨hlt, rfl⟩ := List.getElem?_eq_some_iff.mp hitem
      rw [reorder, hitem]
      exact List.insertIdx_eraseIdx_getElem hlt

theorem modify_eq_self {items : Outline} {i : Nat} {f : OutlineItem → OutlineItem}
    (h : ∀ item, items[i]? = some item → f item = item) : items.modify i f = items := by
  apply List.ext_getElem?
  intro j
  rw [List.getElem?_modify]
  by_cases heq : i = j
  · subst heq
    cases hitem : items[i]? with
    | none => rfl
    | some item => simp [h item hitem]
  · simp [heq]

theorem filter_id_ne_eq {before behind : Outline} {item : OutlineItem}
    (hnodup : ((before ++ item :: behind).map OutlineItem.id).Nodup) :
    ((before ++ item :: behind).filter fun other => other.id != item.id) = before ++ behind := by
  rw [← eraseIdx_of_position? (position?_eq_length hnodup) hnodup,
    List.eraseIdx_append_of_length_le (Nat.le_refl _), Nat.sub_self]
  rfl

/-- Without moving, a statement whose depth fits its neighbours is shown at its own depth. -/
theorem projectUnits_zero {before behind : Outline} {item : OutlineItem}
    (hnodup : ((before ++ item :: behind).map OutlineItem.id).Nodup)
    (hrange : (item.depth : Int) ≤ maxInt64)
    (hmax : item.depth ≤ (before.getLast?.map fun above => above.depth + 1).getD 0)
    (hmin : ∀ next ∈ behind.head?, next.depth ≤ item.depth) :
    ∃ minDepth maxDepth, projectUnits (before ++ item :: behind) item.id item.id 0 =
      .ok ⟨item.depth, parentAtDepth before.reverse item.depth, minDepth, maxDepth⟩ := by
  have hadd : addInt64 item.depth 0 = .ok (item.depth : Int) := by
    have hfits : isInt64 item.depth = true := by
      rw [isInt64, Bool.and_eq_true, decide_eq_true_eq, decide_eq_true_eq, minInt64]
      omega
    rw [addInt64, Int.add_zero, if_pos hfits]
  have hitem : (before ++ item :: behind)[before.length]? = some item := by simp
  have hnext : (before ++ item :: behind)[before.length + 1]? = behind.head? := by
    rw [List.getElem?_append_right (by omega)]
    simp [List.head?_eq_getElem?]
  have hlow : (behind.head?.map OutlineItem.depth).getD 0 ≤ item.depth := by
    cases hhead : behind.head? with
    | none => exact Nat.zero_le _
    | some next => exact hmin next hhead
  unfold projectUnits
  simp only [position?_eq_length hnodup, reorder_self, List.take_left, List.head?_reverse, hnext,
    hitem, Option.map_some, Option.getD_some, hadd]
  have hclamp (low high : Nat) (hlow : low ≤ item.depth) (hhigh : item.depth ≤ high) :
      (max ((min low high : Nat) : Int) (min (item.depth : Int) high)).toNat = item.depth := by
    omega
  rw [hclamp _ _ hlow hmax]
  exact ⟨_, _, rfl⟩

end Outline

/-! ## What stands around a visible statement -/

namespace Block

section Entries

variable {b : Block} {before behind : Outline} {item : OutlineItem}
  (h : b.entriesFrom none 0 = before ++ item :: behind)

include h

theorem depth_le_of_entriesFrom_eq :
    item.depth ≤ (before.getLast?.map fun above => above.depth + 1).getD 0 := by
  cases hlast : before.getLast? with
  | none =>
      rw [List.getLast?_eq_none_iff] at hlast
      subst hlast
      have hzero : item.depth = 0 := by
        apply depth_of_head?_entriesFrom b none
        rw [h]
        rfl
      rw [hzero]
      exact Nat.zero_le _
  | some last =>
      have hchain := isChain_entriesFrom b none 0
      rw [h, List.isChain_append] at hchain
      exact hchain.2.2 last hlast item rfl

/-- What comes behind a statement is nested under it or not deeper. -/
theorem parent_or_depth_le_of_entriesFrom_eq {next : OutlineItem} (hnext : next ∈ behind.head?) :
    next.parent = some item.id ∨ next.depth ≤ item.depth := by
  obtain ⟨rest, rfl⟩ := List.head?_eq_some_iff.mp hnext
  have hsplit : b.entriesFrom none 0 = (before ++ [item]) ++ next :: rest := by
    rw [h, List.append_assoc]
    rfl
  have hstep : next.depth ≤ item.depth + 1 := by
    have hchain := isChain_entriesFrom b none 0
    rw [h, List.isChain_append] at hchain
    exact (List.isChain_cons_cons.mp hchain.2.1).1
  rcases parent_of_entriesFrom_eq hsplit with ⟨hzero, _⟩ | ⟨_, above, habove, hparent⟩
  · exact .inr (by omega)
  · rw [List.reverse_append, List.reverse_singleton, List.singleton_append] at habove
    by_cases hlevel : item.isAbove next.depth = true
    · rw [List.find?_cons_of_pos hlevel] at habove
      cases habove
      exact .inl hparent
    · rw [OutlineItem.isAbove, beq_iff_eq] at hlevel
      exact .inr (by omega)

/-- The items in front of a statement give its own parent at its own depth, if they are what the
block has without it. -/
theorem parentAtDepth_eq_parent {rest : Block}
    (hrest : rest.entriesFrom none 0 = before ++ behind) :
    parentAtDepth before.reverse item.depth = item.parent := by
  rcases parent_of_entriesFrom_eq h with ⟨hzero, hparent⟩ | ⟨hpos, above, habove, hparent⟩
  · rw [hzero, hparent]
    rfl
  · have hmax := depth_le_of_entriesFrom_eq h
    cases hlast : before.getLast? with
    | none =>
        rw [hlast] at hmax
        exact absurd hmax (Nat.not_le_of_gt hpos)
    | some last =>
        rw [hlast] at hmax
        rw [parentAtDepth_eq hrest.symm hlast hpos hmax, habove, hparent]
        rfl

end Entries

/-- A statement with nothing nested under it that is not moved is shown where it stands. -/
theorem projectUnits_outline_of_leaf {b : Block} {item : OutlineItem} {leaf : Node}
    (hnodup : b.ids.Nodup) (hitem : item ∈ b.outline) (hleaf : b.find? item.id = some leaf)
    (hbody : leaf.body = .nil) (hrange : (item.depth : Int) ≤ maxInt64) :
    ∃ minDepth maxDepth, b.outline.projectUnits item.id item.id 0 =
      .ok ⟨item.depth, item.parent, minDepth, maxDepth⟩ := by
  obtain ⟨before, behind, hsplit⟩ := List.append_of_mem hitem
  have hnodupItems := nodup_outline hnodup
  have hentries : b.entriesFrom none 0 = before.map OutlineItem.unindexed ++
      item.unindexed :: behind.map OutlineItem.unindexed := by
    rw [← map_unindexed_outlineFrom b none 0 0, ← List.map_cons, ← List.map_append, ← hsplit]
    rfl
  have hrest : (b.without item.id).entriesFrom none 0 =
      before.map OutlineItem.unindexed ++ behind.map OutlineItem.unindexed := by
    have hnodupEntries := hnodup
    rw [← map_id_entriesFrom b none 0, hentries] at hnodupEntries
    rw [← entriesFrom_without hnodup hleaf hbody, hentries]
    exact Outline.filter_id_ne_eq hnodupEntries
  have hmax := depth_le_of_entriesFrom_eq hentries
  rw [List.getLast?_map, Option.map_map] at hmax
  have hmin : ∀ next ∈ behind.head?, next.depth ≤ item.depth := by
    intro next hnext
    have hbehind : next.unindexed ∈ (behind.map OutlineItem.unindexed).head? := by
      rw [List.head?_map]
      exact Option.mem_map_of_mem _ hnext
    refine (parent_or_depth_le_of_entriesFrom_eq hentries hbehind).resolve_left fun hparent => ?_
    -- The next statement is still there without this one, and so it names another parent.
    have hmem : next.unindexed ∈ (b.without item.id).entriesFrom none 0 := by
      rw [hrest]
      exact List.mem_append_right _ (List.mem_of_head? hbehind)
    have hnested := parent_of_mem_entriesFrom hmem
    rw [hparent] at hnested
    refine not_hasParent_without hnodup hleaf ?_ hnested
    rw [node_ids, (find?_spec hleaf).1]
    exact .head _
  have hparent : parentAtDepth before.reverse item.depth = item.parent := by
    rw [← parentAtDepth_map_unindexed, List.map_reverse]
    exact (parentAtDepth_eq_parent hentries hrest :)
  rw [hsplit] at hnodupItems ⊢
  obtain ⟨minDepth, maxDepth, hprojects⟩ :=
    Outline.projectUnits_zero hnodupItems hrange hmax hmin
  rw [hparent] at hprojects
  exact ⟨minDepth, maxDepth, hprojects⟩

/-- A statement that is not nested under a collapsed one stays visible while it is dragged. -/
theorem mem_visibleDuring {program : Block} {item : OutlineItem} (hnodup : program.ids.Nodup)
    (hitem : item ∈ program.outline)
    (hshown : ∀ node ∈ program.preorder, node.head.collapsed = true → item.id ∉ node.body.ids) :
    item ∈ program.visibleDuring item.id := by
  have hmem : item.id ∈ (program.pruned (Statement.hiding item.id)).ids := by
    rw [mem_ids_pruned_iff hnodup]
    refine ⟨id_mem_of_mem_outline hitem, fun node hnode hhide => ?_⟩
    rw [Statement.hiding, Bool.or_eq_true, beq_iff_eq] at hhide
    rcases hhide with hcollapsed | hid
    · exact hshown node hnode hcollapsed
    · rw [← hid]
      exact notMem_ids_body_of_mem_preorder hnodup hnode
  obtain ⟨shown, hmemShown, hid⟩ := exists_mem_outline hmem
  have hsame : shown = item :=
    List.inj_on_of_nodup_map (nodup_outline hnodup)
      ((outlineFrom_pruned_sublist ..).subset hmemShown) hitem hid
  rw [visibleDuring_eq _ hnodup, ← hsame]
  exact hsame ▸ hmemShown

/-- A visible statement that is not moved is shown where it stands. -/
theorem projectUnits_visibleDuring {program : Block} {item : OutlineItem}
    (hnodup : program.ids.Nodup) (hitem : item ∈ program.visibleDuring item.id)
    (hrange : (item.depth : Int) ≤ maxInt64) :
    ∃ minDepth maxDepth, (program.visibleDuring item.id).projectUnits item.id item.id 0 =
      .ok ⟨item.depth, item.parent, minDepth, maxDepth⟩ := by
  rw [visibleDuring_eq _ hnodup] at hitem ⊢
  obtain ⟨leaf, hleaf, _, hbody⟩ := exists_leaf_pruned (id_mem_of_mem_outline hitem)
  exact projectUnits_outline_of_leaf ((ids_pruned_sublist ..).nodup hnodup) hitem hleaf hbody hrange

/-- Dropped on its own place with its own depth and parent, a statement stays where it is. -/
theorem applyProjection_eq_self {program : Block} {item : OutlineItem} (hnodup : program.ids.Nodup)
    (hitem : item ∈ program.outline) (minDepth maxDepth : Nat) :
    program.applyProjection item.id item.id ⟨item.depth, item.parent, minDepth, maxDepth⟩ =
      .ok program := by
  obtain ⟨node, _, hnode, hchildren, hchild, _⟩ := exists_children?_of_mem_outline hnodup hitem
  obtain ⟨source, hsource⟩ := Option.isSome_iff_exists.mp
    (Outline.position?_isSome.mpr (List.mem_map_of_mem hitem))
  have hsame : ∀ other, program.outline[source]? = some other → other = item := by
    intro other hother
    exact List.inj_on_of_nodup_map (nodup_outline hnodup) (List.mem_of_getElem? hother) hitem
      (Outline.id_of_position? hsource hother)
  have hplaced : program.outline.dropped source source
      ⟨item.depth, item.parent, minDepth, maxDepth⟩ = program.outline := by
    rw [Outline.dropped, Outline.reorder_self, Outline.modify_eq_self]
    intro other hother
    rw [hsame other hother]
  have hparent := notMem_ids_of_children? hnodup hchildren (List.mem_of_getElem? hchild)
  refine (applyProjection_eq_ok_iff hnode).mpr
    ⟨hparent, .inl rfl, source, source, hsource, hsource, ?_⟩
  rw [hplaced, rebuild_outline hnodup]

/-- Dragged onto its own place by an offset that rounds to no unit, a statement that is not nested
under a collapsed one is shown with its own depth and parent, and dropping it there changes nothing.
Depths are counted in 64 bits. -/
theorem projectDrag_self {program : Block} {item : OutlineItem} {offset indent : Binary64}
    (hnodup : program.ids.Nodup) (hitem : item ∈ program.outline)
    (hshown : ∀ node ∈ program.preorder, node.head.collapsed = true → item.id ∉ node.body.ids)
    (hrange : (item.depth : Int) ≤ maxInt64) (hindent : indent.isPositive = true)
    (hunits : unitsIn offset indent = 0) :
    ∃ projection, program.projectDrag item.id item.id offset indent = .ok projection ∧
      projection.depth = item.depth ∧ projection.parent = item.parent ∧
      program.applyProjection item.id item.id projection = .ok program := by
  obtain ⟨minDepth, maxDepth, hprojects⟩ :=
    projectUnits_visibleDuring hnodup (mem_visibleDuring hnodup hitem hshown) hrange
  refine ⟨_, ?_, rfl, rfl, applyProjection_eq_self hnodup hitem minDepth maxDepth⟩
  rw [projectDrag, Outline.project, if_pos hindent, hunits, hprojects]

/-- The collapsed loop, dragged to the right by ten where a level is twenty-four wide. -/
theorem projectDrag_self_nestedWhiles :
    nestedWhiles.ids.Nodup ∧
      ∃ projection, nestedWhiles.projectDrag "inner" "inner" (.ofDecimal false 10 0)
          (.ofDecimal false 24 0) = .ok projection ∧
        projection.depth = 1 ∧ projection.parent = some "outer" ∧
        nestedWhiles.applyProjection "inner" "inner" projection = .ok nestedWhiles := by
  have hnodup : nestedWhiles.ids.Nodup := by decide
  have hitem : ⟨⟨"inner", .whileLoop, ["y < 3"], false, true⟩, some "outer", 1, 0⟩ ∈
      nestedWhiles.outline := by decide
  have hindent : Binary64.isPositive (.ofDecimal false 24 0) = true := by decide +kernel
  have hunits : unitsIn (.ofDecimal false 10 0) (.ofDecimal false 24 0) = 0 := by decide +kernel
  have hshown : ∀ node ∈ nestedWhiles.preorder, node.head.collapsed = true →
      "inner" ∉ node.body.ids := by decide
  obtain ⟨projection, hprojects, hdepth, hparent, happlies⟩ :=
    projectDrag_self hnodup hitem hshown (by decide) hindent hunits
  exact ⟨hnodup, projection, hprojects, hdepth, hparent, happlies⟩

end Block

end BlockCode
