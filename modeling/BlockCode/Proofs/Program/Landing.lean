/- # Where a dropped statement lands

Dropping a statement takes its depth and its parent from a projection, whatever the projection is.
The program is then rebuilt from the outline, and rebuilding goes by parents alone. A parent that is
not in the program counts as none, and the depth is the one that the parent gives. So the projection
is honoured exactly when its parent is there and its depth is one more than the parent's.
-/

import BlockCode.Proofs.Program.Drag
import BlockCode.Proofs.Program.Recovery
import BlockCode.Proofs.Program.Relocation

namespace BlockCode

/-! ## What rebuilding looks at -/

theorem PositionForest.block_congr {items items' : Outline} (forest : PositionForest)
    (h : items.map OutlineItem.statement = items'.map OutlineItem.statement) :
    forest.block items = forest.block items' := by
  have hitem (i : Nat) : items[i]?.map OutlineItem.statement =
      items'[i]?.map OutlineItem.statement := by
    rw [← List.getElem?_map, ← List.getElem?_map, h]
  induction forest with
  | nil => rfl
  | cons i body next ihbody ihnext =>
      have hi := hitem i
      rw [block, block, ihbody, ihnext]
      cases hfirst : items[i]? <;> cases hsecond : items'[i]? <;> simp_all

namespace Outline

theorem names_iff {items : Outline} {i p : Nat} :
    items.Names i p ↔ ∃ id, items[i]?.bind OutlineItem.parent = some id ∧
      (items.map OutlineItem.id)[p]? = some id ∧
        ∀ q, (items.map OutlineItem.id)[q]? = some id → q ≤ p := by
  simp only [List.getElem?_map, Option.map_eq_some_iff, Option.bind_eq_some_iff]
  constructor
  · rintro ⟨item, parent, hitem, hp, hparent, hlast⟩
    refine ⟨parent.id, ⟨item, hitem, hparent⟩, ⟨parent, hp, rfl⟩, ?_⟩
    rintro q ⟨other, hother, hid⟩
    exact hlast q other hother hid
  · rintro ⟨_, ⟨item, hitem, hparent⟩, ⟨parent, hp, rfl⟩, hlast⟩
    exact ⟨item, parent, hitem, hp, hparent, fun q other hother hid => hlast q ⟨other, hother, hid⟩⟩

/-- Lists with the same statements, and with the same parents as far as these are in the list, are
rebuilt alike. -/
theorem program_rebuild_congr {items items' : Outline}
    (hstatements : items.map OutlineItem.statement = items'.map OutlineItem.statement)
    (hparents : ∀ (i : Nat), ∀ id ∈ items.map OutlineItem.id,
      (items[i]?.bind OutlineItem.parent = some id ↔
        items'[i]?.bind OutlineItem.parent = some id)) :
    items.rebuild.program = items'.rebuild.program := by
  have hids : items.map OutlineItem.id = items'.map OutlineItem.id := by
    have hmap := congrArg (List.map Statement.id) hstatements
    rwa [List.map_map, List.map_map] at hmap
  have hlength : items.length = items'.length := by
    simpa using congrArg List.length hids
  have hnames (i p : Nat) : items.Names i p ↔ items'.Names i p := by
    rw [names_iff, names_iff, ← hids]
    refine exists_congr fun id => and_congr_left fun h => hparents i id ?_
    exact List.mem_of_getElem? h.1
  have hposition (i : Nat) : items.parentPosition? i = items'.parentPosition? i := by
    ext p
    rw [parentPosition?_eq_some_iff_names, parentPosition?_eq_some_iff_names, hnames]
  have htable : items.parentPositions = items'.parentPositions := by
    rw [parentPositions, parentPositions, hlength]
    exact List.map_congr_left fun i _ => hposition i
  rw [rebuild, rebuild]
  simp only [htable, hlength, assemble_eq_block]
  exact PositionForest.block_congr _ hstatements

end Outline

/-! ## Parents that are not there -/

/-- The outline with the statement at `source` put to `target`, under the parent of the projection
and at its depth. -/
def Outline.dropped (items : Outline) (source target : Nat) (projection : Projection) : Outline :=
  Outline.reorder
    (items.modify source fun item =>
      { item with depth := projection.depth, parent := projection.parent }) source target

/-- The projection without its parent when that is not in the program. -/
def Projection.within (projection : Projection) (program : Block) : Projection :=
  { projection with parent := projection.parent.filter fun id => program.ids.contains id }

namespace Block

theorem mem_parent_within {program : Block} {projection : Projection} {id : String} :
    (projection.within program).parent = some id ↔
      projection.parent = some id ∧ id ∈ program.ids := by
  rw [Projection.within, Option.filter_eq_some_iff, List.contains_iff_mem]

theorem hasParent_within (program : Block) (projection : Projection) :
    program.HasParent none (projection.within program).parent := by
  cases h : (projection.within program).parent with
  | none => exact .inl rfl
  | some id => exact .inr ⟨id, (mem_parent_within.mp h).2, rfl⟩

/-- A statement can be dropped on a place outside of its subtree, under a parent outside of it. -/
theorem applyProjection_eq_ok_iff {program dropped : Block} {active onto : String} {node : Node}
    {projection : Projection} (hnode : program.find? active = some node) :
    program.applyProjection active onto projection = .ok dropped ↔
      (∀ id ∈ projection.parent, id ∉ node.ids) ∧ (onto = active ∨ onto ∉ node.ids) ∧
        ∃ source target, program.outline.position? active = some source ∧
          program.outline.position? onto = some target ∧
          dropped = (program.outline.dropped source target projection).rebuild.program := by
  have hsubtree : program.subtreeIds active = .ok node.ids := by
    rw [subtreeIds, get, hnode]
    rfl
  have hcycle : projection.parent.any node.ids.contains = true ↔
      ¬ ∀ id ∈ projection.parent, id ∉ node.ids := by
    cases projection.parent <;> simp
  have hnested : (onto ≠ active && node.ids.contains onto) = true ↔
      ¬ (onto = active ∨ onto ∉ node.ids) := by
    simp
  rw [applyProjection, bind_eq_ok_iff]
  constructor
  · rintro ⟨_, hids, h⟩
    obtain rfl := Except.ok.inj (hsubtree.symm.trans hids)
    dsimp only at h
    split at h
    · cases h
    · next hparent =>
      split at h
      · next source hsource =>
        split at h
        · next target htarget =>
          split at h
          · cases h
          · next honto =>
            obtain rfl := Except.ok.inj h
            exact ⟨not_not.mp (mt hcycle.mpr hparent), not_not.mp (mt hnested.mpr honto), source,
              target, hsource, htarget, rfl⟩
        · cases h
      · cases h
  · rintro ⟨hparent, honto, source, target, hsource, htarget, rfl⟩
    refine ⟨_, hsubtree, ?_⟩
    dsimp only
    rw [if_neg (mt hcycle.mp (not_not.mpr hparent)), hsource, htarget]
    dsimp only
    rw [if_neg (mt hnested.mp (not_not.mpr honto))]
    rfl

theorem program_rebuild_dropped_within {program : Block} {active onto : String}
    {source target : Nat} (projection : Projection)
    (hsource : program.outline.position? active = some source)
    (htarget : program.outline.position? onto = some target) :
    (program.outline.dropped source target (projection.within program)).rebuild.program =
      (program.outline.dropped source target projection).rebuild.program := by
  have hlt := Outline.lt_length_of_position? hsource
  have dropped_eq (projection : Projection) :
      program.outline.dropped source target projection =
        (program.outline.eraseIdx source).take target ++
          { program.outline.get ⟨source, hlt⟩ with
            depth := projection.depth, parent := projection.parent } ::
            (program.outline.eraseIdx source).drop target := by
    rw [Outline.dropped, Outline.reorder_eq, List.eraseIdx_modify_of_eq]
    · rw [List.getElem?_modify_eq, List.getElem?_eq_getElem hlt]
      rfl
    · rw [List.length_modify]
      exact Outline.lt_length_of_position? htarget
  apply Outline.program_rebuild_congr
  · rw [dropped_eq, dropped_eq]
    simp only [List.map_append, List.map_cons]
  · intro i id hid
    have hmem : id ∈ program.ids := by
      rw [dropped_eq] at hid
      obtain ⟨item, hitem, rfl⟩ := List.mem_map.mp hid
      rcases List.mem_append.mp hitem with hbefore | hbehind
      · exact id_mem_of_mem_outline (List.mem_of_mem_eraseIdx (List.mem_of_mem_take hbefore))
      · rcases List.mem_cons.mp hbehind with rfl | hbehind
        · exact (id_mem_of_mem_outline (List.getElem_mem hlt) :)
        · exact id_mem_of_mem_outline (List.mem_of_mem_eraseIdx (List.mem_of_mem_drop hbehind))
    rw [dropped_eq, dropped_eq, List.getElem?_append, List.getElem?_append]
    split
    · exact .rfl
    · cases i - ((program.outline.eraseIdx source).take target).length with
      | zero => exact mem_parent_within.trans (and_iff_left hmem)
      | succ _ => exact .rfl

theorem applyProjection_within {program dropped : Block} {active onto : String} {node : Node}
    {projection : Projection} (hnode : program.find? active = some node) :
    program.applyProjection active onto (projection.within program) = .ok dropped ↔
      program.applyProjection active onto projection = .ok dropped := by
  have hparent : (∀ id ∈ (projection.within program).parent, id ∉ node.ids) ↔
      ∀ id ∈ projection.parent, id ∉ node.ids := by
    simp only [Option.mem_def, mem_parent_within]
    exact forall_congr' fun id => ⟨fun h hid hmem => h ⟨hid, (find?_spec hnode).2.subset hmem⟩ hmem,
      fun h hid => h hid.1⟩
  rw [applyProjection_eq_ok_iff hnode, applyProjection_eq_ok_iff hnode, hparent]
  refine and_congr_right fun _ => and_congr_right fun _ => exists_congr fun source =>
    exists_congr fun target => and_congr_right fun hsource => and_congr_right fun htarget => ?_
  rw [program_rebuild_dropped_within projection hsource htarget]

/-! ## The program after a drop -/

/-- A statement can be dropped wherever its place and its parent are outside of its subtree. It does
not matter whether the parent is there. -/
theorem exists_applyProjection_eq_ok_iff {program : Block} {active onto : String} {node : Node}
    {projection : Projection} (hnode : program.find? active = some node) :
    (∃ dropped, program.applyProjection active onto projection = .ok dropped) ↔
      onto ∈ program.ids ∧ (onto = active ∨ onto ∉ node.ids) ∧
        ∀ id ∈ projection.parent, id ∉ node.ids := by
  simp only [applyProjection_eq_ok_iff hnode]
  constructor
  · rintro ⟨_, hparent, honto, _, _, _, htarget, _⟩
    exact ⟨mem_ids_of_position? htarget, honto, hparent⟩
  · rintro ⟨hmem, honto, hparent⟩
    have exists_position {id : String} (hid : id ∈ program.ids) :
        ∃ i, program.outline.position? id = some i := by
      rw [← map_id_outline] at hid
      exact Option.isSome_iff_exists.mp (Outline.position?_isSome.mpr hid)
    obtain ⟨source, hsource⟩ := exists_position (id_mem_of_find? hnode)
    obtain ⟨target, htarget⟩ := exists_position hmem
    exact ⟨_, hparent, honto, source, target, hsource, htarget, rfl⟩

theorem exists_relocates_of_applyProjection {program dropped : Block} {active onto : String}
    {node : Node} {projection : Projection} (hnodup : program.ids.Nodup)
    (hnode : program.find? active = some node)
    (h : program.applyProjection active onto projection = .ok dropped) :
    ∃ index, Relocates program node (projection.within program).parent index dropped := by
  obtain ⟨hparent, honto, _, target, _, htarget, _⟩ := (applyProjection_eq_ok_iff hnode).mp h
  have mem_without {id : String} (hid : id ∈ program.ids) (hout : id ∉ node.ids) :
      id ∈ (program.without active).ids :=
    (List.mem_append.mp ((ids_perm_without hnodup hnode).mem_iff.mp hid)).resolve_left hout
  have hparentLeft :
      (program.without active).HasParent none (projection.within program).parent := by
    rcases hasParent_within program projection with hnone | ⟨id, hid, hsome⟩
    · exact .inl hnone
    · exact .inr ⟨id, mem_without hid (hparent id (mem_parent_within.mp hsome.symm).1), hsome⟩
  have hontoLeft := honto.imp_right (mem_without (mem_ids_of_position? htarget))
  obtain ⟨_, _, _, _, hgraft⟩ := applyProjection_eq_graft hnodup hnode hparentLeft hontoLeft
  obtain rfl := Except.ok.inj (((applyProjection_within hnode).mpr h).symm.trans hgraft)
  obtain rfl := (find?_spec hnode).1
  exact ⟨_, hnodup, hnode, hparentLeft, rfl⟩

theorem exists_depthUnder?_eq {program : Block} {parent : Option String}
    (hnodup : program.ids.Nodup) (hparent : program.HasParent none parent) :
    ∃ depth, program.depthUnder? parent = some depth := by
  rcases hparent with rfl | ⟨id, hid, rfl⟩
  · exact ⟨0, rfl⟩
  · obtain ⟨item, hitem, rfl⟩ := exists_mem_outline hid
    exact ⟨item.depth + 1, by rw [depthUnder?, depthOf_of_mem_outline hnodup hitem]; rfl⟩

/-- A parent that gives a depth is there. -/
theorem parent_within_eq {program : Block} {projection : Projection} {depth : Nat}
    (h : program.depthUnder? projection.parent = some depth) :
    (projection.within program).parent = projection.parent := by
  rcases depthUnder?_eq_some_iff_depthOf.mp h with ⟨hnone, -⟩ | ⟨id, _, hsome, hdepth, -⟩
  · rw [Projection.within, hnone]
    rfl
  · rw [hsome, mem_parent_within]
    refine ⟨hsome, ?_⟩
    rw [depthOf] at hdepth
    split at hdepth
    · next item hitem =>
      obtain rfl : item.id = id := by simpa using List.find?_some hitem
      exact id_mem_of_mem_outline (List.mem_of_find?_eq_some hitem)
    · cases hdepth

/-- When a drop is done, and what it makes of its projection. A statement that is there can be
dropped on any place outside of its subtree, with any depth and any parent outside of its subtree.
The same subtree then stands under the parent, or is a root when the parent is not there, and the
rest of the program is as before. The depth is the one that the place gives. So the projection is
honoured exactly when its depth is the one that its parent gives. -/
theorem applyProjection_honours_iff {program : Block} (hnodup : program.ids.Nodup)
    (active onto : String) (projection : Projection) :
    ((∃ dropped, program.applyProjection active onto projection = .ok dropped) ↔
      ∃ node, program.find? active = some node ∧ onto ∈ program.ids ∧
        (onto = active ∨ onto ∉ node.ids) ∧ ∀ id ∈ projection.parent, id ∉ node.ids) ∧
    ∀ dropped, program.applyProjection active onto projection = .ok dropped →
      ∃ node item rest, program.find? active = some node ∧ dropped.find? active = some node ∧
        item ∈ dropped.outline ∧ item.id = active ∧ dropped.depthOf active = .ok item.depth ∧
        item.parent = (projection.within program).parent ∧
        program.depthUnder? item.parent = some item.depth ∧
        program.remove active = .ok rest ∧ dropped.remove active = .ok rest ∧
        (item.parent = projection.parent ∧ item.depth = projection.depth ↔
          program.depthUnder? projection.parent = some projection.depth) := by
  have exists_node {dropped : Block}
      (h : program.applyProjection active onto projection = .ok dropped) :
      ∃ node, program.find? active = some node := by
    rw [applyProjection] at h
    obtain ⟨_, hsubtree, _⟩ := bind_eq_ok_iff.mp h
    rw [subtreeIds, get] at hsubtree
    split at hsubtree
    · next node hnode => exact ⟨node, hnode⟩
    · cases hsubtree
  constructor
  · constructor
    · rintro ⟨dropped, h⟩
      obtain ⟨node, hnode⟩ := exists_node h
      exact ⟨node, hnode, (exists_applyProjection_eq_ok_iff hnode).mp ⟨dropped, h⟩⟩
    · rintro ⟨node, hnode, h⟩
      exact (exists_applyProjection_eq_ok_iff hnode).mpr h
  · intro dropped h
    obtain ⟨node, hnode⟩ := exists_node h
    obtain ⟨index, hdropped⟩ := exists_relocates_of_applyProjection hnodup hnode h
    obtain rfl := (find?_spec hnode).1
    obtain ⟨depth, hdepth⟩ := exists_depthUnder?_eq hnodup (hasParent_within program projection)
    obtain ⟨item, hitem, hid, hparent, rfl⟩ := hdropped.exists_item hdepth
    have hdepthItem := depthOf_of_mem_outline hdropped.nodup_ids hitem
    rw [hid] at hdepthItem
    rw [← hparent] at hdepth
    refine ⟨node, item, _, hnode, hdropped.find?_eq, hitem, hid, hdepthItem, hparent, hdepth,
      remove_eq_ok hnodup hnode, hdropped.remove_eq.trans (remove_eq_ok hnodup hnode), ?_, ?_⟩
    · rintro ⟨hsame, hlevel⟩
      rw [← hsame, ← hlevel, hdepth]
    · intro hfits
      have hsame : item.parent = projection.parent := by
        rw [hparent, parent_within_eq hfits]
      rw [hsame, hfits] at hdepth
      exact ⟨hsame, (Option.some.inj hdepth).symm⟩

/-- Behind the loop, the statement can be dropped into it. -/
theorem applyProjection_honours_iff_loopThenOutput :
    loopThenOutput.ids.Nodup ∧ loopThenOutput.depthUnder? (some "loop") = some 1 ∧
      ∃ dropped item,
        loopThenOutput.applyProjection "outer" "inner" ⟨1, some "loop", 1, 1⟩ = .ok dropped ∧
          item ∈ dropped.outline ∧ item.id = "outer" ∧
          item.parent = some "loop" ∧ item.depth = 1 := by
  have hnodup : loopThenOutput.ids.Nodup := by decide
  have hdepth : loopThenOutput.depthUnder? (some "loop") = some 1 := by decide
  obtain ⟨happlies, hhonours⟩ :=
    applyProjection_honours_iff hnodup "outer" "inner" ⟨1, some "loop", 1, 1⟩
  obtain ⟨dropped, h⟩ := happlies.mpr ⟨⟨⟨"outer", .output, ["x"], false, false⟩, .nil⟩, by decide⟩
  obtain ⟨_, item, _, _, _, hitem, hid, _, _, _, _, _, hiff⟩ := hhonours dropped h
  exact ⟨hnodup, hdepth, dropped, item, h, hitem, hid, hiff.mpr hdepth⟩

/-- A depth that no place gives is dropped silently, and so is a parent that is not there. -/
theorem applyProjection_repairs :
    loopThenOutput.ids.Nodup ∧
      (∃ dropped, loopThenOutput.applyProjection "outer" "outer" ⟨5, none, 0, 0⟩ = .ok dropped ∧
        dropped.depthOf "outer" = .ok 0) ∧
      ∃ dropped,
        loopThenOutput.applyProjection "outer" "outer" ⟨1, some "missing", 0, 1⟩ = .ok dropped ∧
          dropped = loopThenOutput ∧ dropped.depthOf "outer" = .ok 0 :=
  ⟨by decide, ⟨_, rfl, by decide⟩, _, rfl, by decide⟩

end Block

end BlockCode
