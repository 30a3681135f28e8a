/- # A node at another place

Moving a statement, and dropping it where it was dragged to, both give a program that is what was
left without a node, with the node grafted on at another place. What this says of the identifiers,
the node and its depths does not depend on how the program came about.
-/

import BlockCode.Proofs.Program.Insertion

namespace BlockCode

namespace Block

/-- The second program is the first one, whose identifiers are distinct, with the node taken out and
put in at another place. -/
structure Relocates (program : Block) (node : Node) (parent : Option String) (index : Nat)
    (moved : Block) : Prop where
  nodup : program.ids.Nodup
  found : program.find? node.head.id = some node
  hasParent : (program.without node.head.id).HasParent none parent
  eq_graft : moved = (program.without node.head.id).graft parent none node index

namespace Relocates

variable {program moved : Block} {node : Node} {parent : Option String} {index : Nat}
  (h : Relocates program node parent index moved)

include h

theorem nodup_without : (program.without node.head.id).ids.Nodup :=
  (ids_without_sublist ..).nodup h.nodup

theorem notMem_without : ∀ id ∈ node.ids, id ∉ (program.without node.head.id).ids :=
  (ids_disjoint_of_find? h.nodup h.found).2.2.2

theorem head_notMem_without : node.head.id ∉ (program.without node.head.id).ids := by
  apply h.notMem_without
  rw [node_ids]
  exact .head _

/-- The new parent is outside of the node. -/
theorem notMem_ids : ∀ id ∈ parent, id ∉ node.ids := by
  rintro id rfl hid
  rcases h.hasParent with heq | ⟨_, hmem, ⟨⟩⟩
  · cases heq
  · exact h.notMem_without id hid hmem

theorem nodup_ids : moved.ids.Nodup := by
  rw [h.eq_graft]
  exact nodup_graft index h.nodup_without (ne_none _) h.hasParent
    (ids_disjoint_of_find? h.nodup h.found).2.1 h.notMem_without

theorem find?_eq : moved.find? node.head.id = some node := by
  rw [h.eq_graft]
  exact find?_graft index h.nodup_without (ne_none _) h.hasParent h.head_notMem_without

theorem without_eq : moved.without node.head.id = program.without node.head.id := by
  rw [h.eq_graft]
  exact without_graft h.head_notMem_without

theorem remove_eq : moved.remove node.head.id = program.remove node.head.id := by
  rw [remove_eq_ok h.nodup h.found, remove_eq_ok h.nodup_ids h.find?_eq, h.without_eq]

/-- The item of the node names the new parent and stands at the depth that the parent gives. -/
theorem exists_item {depth : Nat} (hdepth : program.depthUnder? parent = some depth) :
    ∃ item ∈ moved.outline, item.id = node.head.id ∧ item.parent = parent ∧ item.depth = depth := by
  rw [h.eq_graft]
  apply exists_mem_outline_graft index h.nodup_without
  rw [depthUnder?_without h.nodup h.found h.notMem_ids, hdepth]

/-- All depths in the subtree shift together. -/
theorem exists_depthOf_eq {level depth : Nat} (hlevel : program.depthOf node.head.id = .ok level)
    (hdepth : moved.depthOf node.head.id = .ok depth) {id : String} (hid : id ∈ node.ids) :
    ∃ below, program.depthOf id = .ok (level + below) ∧ moved.depthOf id = .ok (depth + below) := by
  have hnodup : node.toBlock.ids.Nodup := (ids_disjoint_of_find? h.nodup h.found).2.1
  obtain ⟨item, hitem, rfl⟩ : ∃ item ∈ node.toBlock.outline, item.id = id := exists_mem_outline hid
  have hbelow := depthOf_of_mem_outline hnodup hitem
  exact ⟨item.depth, depthOf_of_find? h.nodup h.found hlevel hbelow,
    depthOf_of_find? h.nodup_ids h.find?_eq hdepth hbelow⟩

end Relocates

end Block

end BlockCode
