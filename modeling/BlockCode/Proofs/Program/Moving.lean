/- # Moving a statement

A move takes a node out and inserts it at another place, in a program whose identifiers are
distinct. Before and after, the program is what is left without the node, with the node put in. So a
move is possible exactly where there is a place in what is left, and moving the node back to its old
place gives the old program.
-/

import BlockCode.Proofs.Program.Insertion
import BlockCode.Proofs.Program.Relocation

namespace BlockCode

namespace Block

/-- A move is an insertion into what is left without the node, at a depth that fits. -/
theorem move_eq_ok_iff {program moved : Block} {id : String} {node : Node} {depth : Nat}
    {parent : Option String} {index : Nat} (hnodup : program.ids.Nodup)
    (hnode : program.find? id = some node) :
    program.move id depth parent index = .ok moved ↔
      (∀ other ∈ parent, other ∉ node.ids) ∧ program.depthUnder? parent = some depth ∧
        (program.without id).insert parent index node = .ok moved := by
  have hget : program.get id = .ok node := by rw [get, hnode]
  have hdetach : program.detach? id = some (node, program.without id) := by
    rw [detach?_eq hnodup, hnode]
    rfl
  rw [move, hget]
  simp only [hdetach]
  cases parent with
  | none =>
      simp only [depthUnder?, Option.some.injEq, eq_comm (a := 0)]
      by_cases hdepth : depth = 0
      · simp [hdepth, bind, Except.bind, pure, Except.pure]
      · simp [hdepth, bind, Except.bind, pure, Except.pure, throw, throwThe, MonadExceptOf.throw]
  | some other =>
      have hsubtree : program.subtreeIds id = .ok node.ids := by
        rw [subtreeIds, hget]
        rfl
      simp only [hsubtree, depthUnder?, bind, Except.bind]
      by_cases hmem : other ∈ node.ids
      · simp [hmem, throw, throwThe, MonadExceptOf.throw]
      · cases habove : program.depthOf other with
        | error e => simp [hmem, Except.toOption]
        | ok above =>
            by_cases hdepth : depth = above + 1
            · simp [hmem, hdepth, Except.toOption, pure, Except.pure]
            · simp [hmem, hdepth, Ne.symm hdepth, Except.toOption, pure, Except.pure, throw,
                throwThe, MonadExceptOf.throw]

/-- Where a node can be moved: outside of itself, at the depth that the parent gives, and with an
index among the children that the parent has besides it. -/
theorem exists_move_eq_ok_iff {program : Block} {id : String} {node : Node} {depth : Nat}
    {parent : Option String} {index : Nat} (hnodup : program.ids.Nodup)
    (hnode : program.find? id = some node) :
    (∃ moved, program.move id depth parent index = .ok moved) ↔
      (∀ other ∈ parent, other ∉ node.ids) ∧ program.depthUnder? parent = some depth ∧
        ∃ children, program.children? parent = some children ∧
          index ≤ (children.filter fun child => child.head.id != id).length := by
  simp only [move_eq_ok_iff hnodup hnode, insert_eq_ok_iff]
  constructor
  · rintro ⟨_, hout, hdepth, _, ⟨left, hleft, hindex⟩, _⟩
    obtain ⟨children, hchildren⟩ : ∃ children, program.children? parent = some children := by
      rw [← Option.isSome_iff_exists, children?_isSome_iff]
      have hparent := hasParent_of_children? hleft
      exact hparent.mono (ids_without_sublist program id).subset
    obtain ⟨left', hleft', hlength⟩ := exists_children?_without hnodup hnode hchildren hout
    obtain rfl := Option.some.inj (hleft.symm.trans hleft')
    exact ⟨hout, hdepth, children, hchildren, hlength ▸ hindex⟩
  · rintro ⟨hout, hdepth, children, hchildren, hindex⟩
    obtain ⟨left, hleft, hlength⟩ := exists_children?_without hnodup hnode hchildren hout
    obtain ⟨_, _, _, hnew⟩ := ids_disjoint_of_find? hnodup hnode
    exact ⟨_, hout, hdepth, hnew, ⟨left, hleft, hlength ▸ hindex⟩, rfl⟩

/-! ## The program after a move -/

theorem relocates_of_move {program moved : Block} {id : String} {node : Node} {depth : Nat}
    {parent : Option String} {index : Nat} (hnodup : program.ids.Nodup)
    (hnode : program.find? id = some node)
    (h : program.move id depth parent index = .ok moved) :
    Relocates program node parent index moved := by
  obtain ⟨_, _, hinsert⟩ := (move_eq_ok_iff hnodup hnode).mp h
  obtain ⟨_, ⟨children, hchildren, _⟩, rfl⟩ := insert_eq_ok_iff.mp hinsert
  obtain rfl := (find?_spec hnode).1
  have hparent := hasParent_of_children? hchildren
  exact ⟨hnodup, hnode, hparent,
    putIn_eq_graft index node ((ids_without_sublist ..).nodup hnodup) hparent⟩

/-- The moved node is the child at the index. -/
theorem exists_children?_of_move {program moved : Block} {id : String} {node : Node} {depth : Nat}
    {parent : Option String} {index : Nat} (hnodup : program.ids.Nodup)
    (hnode : program.find? id = some node)
    (h : program.move id depth parent index = .ok moved) :
    ∃ children, moved.children? parent = some children ∧ children[index]? = some node := by
  obtain ⟨_, _, hinsert⟩ := (move_eq_ok_iff hnodup hnode).mp h
  obtain ⟨_, ⟨left, hleft, hindex⟩, rfl⟩ := insert_eq_ok_iff.mp hinsert
  refine ⟨_, children?_putIn hleft hindex, ?_⟩
  rw [List.getElem?_append_right (by rw [List.length_take]; omega), List.length_take,
    Nat.min_eq_left hindex, Nat.sub_self]
  rfl

/-- The old place of a node is open in a program in which it stands elsewhere. -/
theorem move_back {program moved : Block} {node : Node} {parent : Option String} {index : Nat}
    (h : Relocates program node parent index moved) {item : OutlineItem}
    (hitem : item ∈ program.outline) (hid : item.id = node.head.id) :
    moved.move node.head.id item.depth item.parent item.index = .ok program := by
  obtain ⟨node', children, hnode, hchildren, hchild, hdepth⟩ :=
    exists_children?_of_mem_outline h.nodup hitem
  obtain rfl : node = node' := Option.some.inj ((hid ▸ h.found).symm.trans hnode)
  have hout := notMem_ids_of_children? h.nodup hchildren (List.mem_of_getElem? hchild)
  refine (move_eq_ok_iff h.nodup_ids h.find?_eq).mpr ⟨hout, ?_, ?_⟩
  · rw [← depthUnder?_without h.nodup_ids h.find?_eq hout, h.without_eq,
      depthUnder?_without h.nodup h.found hout, hdepth]
  · rw [h.without_eq]
    exact insert_without h.nodup hchildren hchild

/-- A move moves one subtree and nothing else, and can be undone. It is possible exactly for a
statement that is there, to a parent that is absent or is there and outside of the statement's
subtree, at the depth that the parent gives, and with an index among the children that the parent
has besides the statement. Afterwards the statement is the child at the index, with the same nested
under it, all depths in its subtree shifted together, and without it the program is the same as
before. A move back to the old depth, parent and index gives the old program. -/
theorem move_relocates {program : Block} (hnodup : program.ids.Nodup) (id : String) (depth : Nat)
    (parent : Option String) (index : Nat) :
    ((∃ moved, program.move id depth parent index = .ok moved) ↔
      ∃ node children, program.find? id = some node ∧
        (∀ other ∈ parent, other ∈ program.ids ∧ other ∉ node.ids) ∧
        (parent = none ∧ depth = 0 ∨
          ∃ other above, parent = some other ∧ program.depthOf other = .ok above ∧
            depth = above + 1) ∧
        program.children? parent = some children ∧
        index ≤ (children.filter fun child => child.head.id != id).length) ∧
    ∀ moved, program.move id depth parent index = .ok moved →
      ∃ node item rest, program.find? id = some node ∧ moved.find? id = some node ∧
        (∃ children, moved.children? parent = some children ∧ children[index]? = some node) ∧
        moved.depthOf id = .ok depth ∧
        item ∈ program.outline ∧ item.id = id ∧
        (∀ other ∈ node.ids, ∃ below, program.depthOf other = .ok (item.depth + below) ∧
          moved.depthOf other = .ok (depth + below)) ∧
        program.remove id = .ok rest ∧ moved.remove id = .ok rest ∧
        moved.move id item.depth item.parent item.index = .ok program := by
  have exists_node {moved : Block} (h : program.move id depth parent index = .ok moved) :
      ∃ node, program.find? id = some node := by
    rw [move] at h
    obtain ⟨node, hget, _⟩ := bind_eq_ok_iff.mp h
    exact ⟨node, find?_of_get hget⟩
  constructor
  · constructor
    · rintro ⟨moved, h⟩
      obtain ⟨node, hnode⟩ := exists_node h
      obtain ⟨hout, hdepth, children, hchildren, hindex⟩ :=
        (exists_move_eq_ok_iff hnodup hnode).mp ⟨moved, h⟩
      exact ⟨node, children, hnode,
        fun other hother => ⟨mem_ids_of_children? hchildren other hother, hout other hother⟩,
        depthUnder?_eq_some_iff_depthOf.mp hdepth, hchildren, hindex⟩
    · rintro ⟨node, children, hnode, hparent, hdepth, hchildren, hindex⟩
      exact (exists_move_eq_ok_iff hnodup hnode).mpr ⟨fun other hother => (hparent other hother).2,
        depthUnder?_eq_some_iff_depthOf.mpr hdepth, children, hchildren, hindex⟩
  · intro moved h
    obtain ⟨node, hnode⟩ := exists_node h
    obtain rfl := (find?_spec hnode).1
    have hmoved := relocates_of_move hnodup hnode h
    obtain ⟨_, hdepth, _⟩ := (move_eq_ok_iff hnodup hnode).mp h
    obtain ⟨new, hnew, hid, _, rfl⟩ := hmoved.exists_item hdepth
    have hdepthNew := depthOf_of_mem_outline hmoved.nodup_ids hnew
    rw [hid] at hdepthNew
    obtain ⟨old, hold, hidOld⟩ := exists_mem_outline (id_mem_of_find? hnode)
    have hdepthOld := depthOf_of_mem_outline hnodup hold
    rw [hidOld] at hdepthOld
    exact ⟨node, old, _, hnode, hmoved.find?_eq, exists_children?_of_move hnodup hnode h, hdepthNew,
      hold, hidOld, fun _ => hmoved.exists_depthOf_eq hdepthOld hdepthNew,
      remove_eq_ok hnodup hnode, hmoved.remove_eq.trans (remove_eq_ok hnodup hnode),
      move_back hmoved hold hidOld⟩

/-- A loop in a loop, with one statement in it, and a statement behind both. -/
def nestedLoops : Block := .ofNodes [
  ⟨⟨"outer", .whileLoop, ["true"], false, false⟩, .ofNodes [
    ⟨⟨"inner", .whileLoop, ["true"], false, false⟩,
      .ofNodes [⟨⟨"step", .output, ["1"], false, false⟩, .nil⟩]⟩]⟩,
  ⟨⟨"last", .output, ["2"], false, false⟩, .nil⟩]

/-- The inner loop is moved behind all other statements. -/
theorem move_relocates_nestedLoops :
    nestedLoops.ids.Nodup ∧
      ∃ moved, nestedLoops.move "inner" 0 none 2 = .ok moved ∧
        moved.depthOf "inner" = .ok 0 ∧ moved.depthOf "step" = .ok 1 ∧
        ∃ item ∈ nestedLoops.outline, item.id = "inner" ∧
          moved.move "inner" item.depth item.parent item.index = .ok nestedLoops := by
  have hnodup : nestedLoops.ids.Nodup := by decide
  obtain ⟨hmoves, hmoved⟩ := move_relocates hnodup "inner" 0 none 2
  obtain ⟨moved, h⟩ := hmoves.mpr ⟨_, _, rfl, by simp, by simp, rfl, by decide⟩
  obtain ⟨_, item, _, _, _, _, hdepth, hitem, hid, _, _, _, hback⟩ := hmoved moved h
  obtain rfl := Except.ok.inj h
  exact ⟨hnodup, _, rfl, hdepth, by decide, item, hitem, hid, hback⟩

end Block

end BlockCode
