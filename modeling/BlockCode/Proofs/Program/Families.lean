/- # Families of a rebuilt program

The forest of positions says which positions stand directly under which. In the program that is put
together from it, the statements under a statement are those of the items at these positions, in
the same order. For the forest that rebuilding grows, they are all positions whose parent is kept
and is this one.
-/

import BlockCode.Proofs.Program.Edits

namespace BlockCode

namespace PositionForest

theorem map_fst_families (forest : PositionForest) :
    forest.families.map Prod.fst = forest.positions := by
  induction forest with
  | nil => rfl
  | cons i body next ihbody ihnext =>
      rw [families, positions, List.map_cons, List.map_append, ihbody, ihnext]

theorem mem_positions_of_mem_families {forest : PositionForest} {family : Nat × List Nat}
    (h : family ∈ forest.families) : family.1 ∈ forest.positions := by
  rw [← map_fst_families]
  exact List.mem_map_of_mem h

/-- What is not a root stands directly under a position. -/
theorem mem_roots_or_mem_families {forest : PositionForest} {i : Nat} (h : i ∈ forest.positions) :
    i ∈ forest.roots ∨ ∃ family ∈ forest.families, i ∈ family.2 := by
  induction forest with
  | nil => cases h
  | cons p body next ihbody ihnext =>
      rw [positions, List.mem_cons, List.mem_append] at h
      rcases h with rfl | h | h
      · exact .inl (.head _)
      · rcases ihbody h with hroot | ⟨family, hfamily, hmem⟩
        · exact .inr ⟨_, .head _, hroot⟩
        · exact .inr ⟨family, .tail _ (List.mem_append_left _ hfamily), hmem⟩
      · rcases ihnext h with hroot | ⟨family, hfamily, hmem⟩
        · exact .inl (.tail _ hroot)
        · exact .inr ⟨family, .tail _ (List.mem_append_right _ hfamily), hmem⟩

variable {items : Outline}

theorem nodes_block {forest : PositionForest} (h : ∀ i ∈ forest.positions, i < items.length) :
    (forest.block items).nodes.map Node.head =
      (items.itemsAt forest.roots).map OutlineItem.statement := by
  induction forest with
  | nil => rfl
  | cons i body next _ ihnext =>
      rw [positions, List.forall_mem_cons, List.forall_mem_append] at h
      have hitem := List.getElem?_eq_getElem h.1
      rw [Outline.itemsAt] at ihnext
      rw [block, hitem, roots, Outline.itemsAt, List.filterMap_cons_some hitem, List.map_cons,
        ← ihnext h.2.2]
      rfl

theorem id_mem_ids_block {forest : PositionForest} (h : ∀ i ∈ forest.positions, i < items.length)
    {i : Nat} {item : OutlineItem} (hi : i ∈ forest.positions) (hitem : items[i]? = some item) :
    item.id ∈ (forest.block items).ids := by
  rw [Block.ids, Outline.statements_block h]
  exact List.mem_map_of_mem (List.mem_filterMap.mpr ⟨i, hi, by rw [hitem]; rfl⟩)

/-- The statements under a statement are those at the positions under its position. -/
theorem under_block {forest : PositionForest} {own : Option String} {family : Nat × List Nat}
    {item : OutlineItem} (h : ∀ i ∈ forest.positions, i < items.length)
    (hnodup : (forest.block items).ids.Nodup) (hfamily : family ∈ forest.families)
    (hitem : items[family.1]? = some item) (hown : ∀ id ∈ (forest.block items).ids, some id ≠ own) :
    (forest.block items).under (some item.id) own =
      (items.itemsAt family.2).map OutlineItem.statement := by
  have hne : own ≠ some item.id :=
    (hown _ (id_mem_ids_block h (mem_positions_of_mem_families hfamily) hitem)).symm
  have absent {b : Block} {id : String} (hid : id ∉ b.ids) : ∀ other ∈ b.ids,
      some other ≠ some id := fun other hother heq => hid (Option.some.inj heq ▸ hother)
  induction forest generalizing own with
  | nil => cases hfamily
  | cons i body next ihbody ihnext =>
      rw [positions, List.forall_mem_cons, List.forall_mem_append] at h
      obtain ⟨hi, hbody, hnext⟩ := h
      obtain ⟨first, hfirst⟩ : ∃ first, items[i]? = some first := ⟨_, List.getElem?_eq_getElem hi⟩
      have hblock : (cons i body next).block items =
          .cons first.statement (body.block items) (next.block items) := by
        rw [block, hfirst]
      rw [hblock] at hnodup hown ⊢
      obtain ⟨hout, hout', hnodupBody, hnodupNext, hdisjoint⟩ := Block.nodup_ids_cons.mp hnodup
      rw [families, List.mem_cons, List.mem_append] at hfamily
      rw [Block.under, if_neg hne, List.nil_append]
      rcases hfamily with rfl | hfamily | hfamily
      · obtain rfl := Option.some.inj (hfirst.symm.trans hitem)
        rw [Block.under_eq_nil hne (absent hout'), List.append_nil]
        exact (Block.under_own (absent hout)).trans (nodes_block hbody)
      · have hid := id_mem_ids_block hbody (mem_positions_of_mem_families hfamily) hitem
        have hne' : some first.statement.id ≠ some item.id := (absent hout _ hid).symm
        rw [Block.under_eq_nil hne (absent (hdisjoint _ hid)), List.append_nil]
        exact ihbody hbody hnodupBody hfamily (absent hout) hne'
      · have hid := id_mem_ids_block hnext (mem_positions_of_mem_families hfamily) hitem
        have hne' : some first.statement.id ≠ some item.id := (absent hout' _ hid).symm
        have hid' : item.id ∉ (body.block items).ids := fun hid' => hdisjoint _ hid' hid
        rw [Block.under_eq_nil hne' (absent hid'), List.nil_append]
        exact ihnext hnext hnodupNext hfamily (Block.ne_own_of_cons hown) hne

end PositionForest

namespace Outline

/-! ## The forest that rebuilding grows -/

/-- The positions of the list, nested as rebuilding nests their statements. -/
def positionForest (items : Outline) : PositionForest :=
  ParentTable.grow items.parentPositions (ParentTable.cuts items.parentPositions) items.length
    (ParentTable.roots items.parentPositions ++ ParentTable.cuts items.parentPositions)

theorem program_rebuild (items : Outline) :
    items.rebuild.program = items.positionForest.block items :=
  items.assemble_eq_block ..

theorem positions_positionForest (items : Outline) :
    items.positionForest.positions.Perm (List.range items.length) :=
  items.cutsCircles_cuts.positions_perm

theorem lt_length_of_mem_positionForest {items : Outline} :
    ∀ i ∈ items.positionForest.positions, i < items.length := by
  intro i hi
  exact List.mem_range.mp (items.positions_positionForest.mem_iff.mp hi)

theorem roots_positionForest (items : Outline) :
    items.positionForest.roots =
      ParentTable.roots items.parentPositions ++ ParentTable.cuts items.parentPositions := by
  apply ParentTable.roots_grow
  rcases Nat.eq_zero_or_pos items.length with hlength | hlength
  · left
    rw [List.eq_nil_iff_forall_not_mem]
    intro i hi
    have hlt := items.cutsCircles_cuts.lt_length hi
    omega
  · exact .inr hlength

/-- Under a position stand all positions whose parent it is and that keep it. -/
theorem eq_children_of_mem_families {items : Outline} {family : Nat × List Nat}
    (hfamily : family ∈ items.positionForest.families) :
    family.2 = ParentTable.children items.parentPositions
      (ParentTable.cuts items.parentPositions) family.1 := by
  have hsublist := ParentTable.sublist_of_mem_families hfamily
  apply hsublist.eq_of_length_le
  refine (List.subperm_of_subset (List.nodup_range.filter _) fun i hi => ?_).length_le
  have hkept := ParentTable.mem_children.mp hi
  have hlt := ParentTable.lt_length_of_parent? (ParentTable.parent?_of_kept hkept)
  rw [length_parentPositions] at hlt
  have hmem : i ∈ items.positionForest.positions :=
    items.positions_positionForest.mem_iff.mpr (List.mem_range.mpr hlt)
  rcases PositionForest.mem_roots_or_mem_families hmem with hroot | ⟨other, hother, hmem⟩
  · rw [roots_positionForest, mem_roots_iff hlt, hkept] at hroot
    cases hroot
  · have hsame : other.1 = family.1 := by
      have hkept' := ParentTable.mem_children.mp
        ((ParentTable.sublist_of_mem_families hother).subset hmem)
      exact Option.some.inj (hkept'.symm.trans hkept)
    have hnodup : (items.positionForest.families.map Prod.fst).Nodup := by
      rw [PositionForest.map_fst_families]
      exact items.positions_positionForest.nodup_iff.mpr List.nodup_range
    rwa [List.inj_on_of_nodup_map hnodup hother hfamily hsame] at hmem

/-- Positions chosen by the items on them have the items chosen the same way. -/
theorem itemsAt_filter_range {items : Outline} {f : OutlineItem → Bool} {q : Nat → Bool}
    (h : ∀ i item, items[i]? = some item → q i = f item) :
    items.itemsAt ((List.range items.length).filter q) = items.filter f := by
  have hfilter := congrArg (List.filterMap id) (map_getElem?_filter_range h)
  rw [List.filterMap_map, List.filterMap_map] at hfilter
  exact hfilter.trans List.filterMap_some

theorem itemsAt_range (items : Outline) : items.itemsAt (List.range items.length) = items := by
  have hfilter : items.itemsAt ((List.range items.length).filter fun _ => true) =
      items.filter fun _ => true := itemsAt_filter_range fun _ _ _ => rfl
  rwa [List.filter_true, List.filter_true] at hfilter

/-- The roots of the program are the roots of the list and behind them what was cut off. -/
theorem nodes_rebuild (items : Outline) :
    items.rebuild.program.nodes.map Node.head =
      (items.itemsAt (ParentTable.roots items.parentPositions ++
        ParentTable.cuts items.parentPositions)).map OutlineItem.statement := by
  rw [program_rebuild, PositionForest.nodes_block lt_length_of_mem_positionForest,
    roots_positionForest]

/-- Under a statement stand those whose items name it and were not cut off. -/
theorem under_rebuild {items : Outline} {i : Nat} {item : OutlineItem}
    (hnodup : (items.map OutlineItem.id).Nodup) (hitem : items[i]? = some item) :
    items.rebuild.program.under (some item.id) none =
      (items.itemsAt (ParentTable.children items.parentPositions
        (ParentTable.cuts items.parentPositions) i)).map OutlineItem.statement := by
  have hmem : i ∈ items.positionForest.positions :=
    items.positions_positionForest.mem_iff.mpr
      (List.mem_range.mpr (List.getElem?_eq_some_iff.mp hitem).1)
  rw [← PositionForest.map_fst_families] at hmem
  obtain ⟨family, hfamily, rfl⟩ := List.mem_map.mp hmem
  have hids : items.rebuild.program.ids.Nodup := by
    have hperm := items.statements_rebuild_perm.map Statement.id
    rw [List.map_map] at hperm
    exact hperm.nodup_iff.mpr hnodup
  rw [program_rebuild] at hids ⊢
  rw [PositionForest.under_block lt_length_of_mem_positionForest hids hfamily hitem
    (Block.ne_none _), eq_children_of_mem_families hfamily]

end Outline

end BlockCode
