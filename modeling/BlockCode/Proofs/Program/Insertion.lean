/- # Insertion and removal

Insertion looks for the parent in the order of the program, and removal looks at all statements of a
block before it goes deeper. Identifiers may be repeated, so the two searches can lead to different
statements of one identifier. A node that is inserted brings only identifiers that were not in use:
its first statement is then met before anything with the same identifier nested under it, and taking
it out again leaves the program as it was.

With distinct identifiers each child of a statement can be taken out and put in again.
-/

import BlockCode.Proofs.Outcome
import BlockCode.Proofs.Program.Places

namespace BlockCode

namespace Block

/-! ## When a node can be put in -/

/-- Insertion wants new identifiers, a parent that is there, and an index among its children or
behind the last of them. -/
theorem insert_eq_ok_iff {program inserted : Block} {parent : Option String} {index : Nat}
    {node : Node} :
    program.insert parent index node = .ok inserted ↔
      (∀ id ∈ node.ids, id ∉ program.ids) ∧
        (∃ children, program.children? parent = some children ∧ index ≤ children.length) ∧
          program.putIn parent index node = inserted := by
  rw [Block.insert.eq_def]
  split
  · next id hid =>
    refine iff_of_false (by rintro ⟨⟩) fun hplace => ?_
    have hused := List.find?_some hid
    exact hplace.1 id (List.mem_of_find?_eq_some hid) (find?_isSome_iff.mp hused)
  · next hunused =>
    have hnew : ∀ id ∈ node.ids, id ∉ program.ids := fun id hid hused =>
      List.find?_eq_none.mp hunused id hid (find?_isSome_iff.mpr hused)
    rw [and_iff_right hnew]
    cases parent with
    | none =>
        simp only [children?, Option.some.injEq, exists_eq_left', length_nodes, putIn]
        by_cases hindex : index > program.width
        · simp [hindex, throw, throwThe, MonadExceptOf.throw, bind, Except.bind]
        · simp [hindex, Nat.le_of_not_lt hindex, pure, Except.pure]
    | some id =>
        simp only [children?_some, putIn]
        cases hfound : program.find? id with
        | none => simp [get, hfound, bind, Except.bind]
        | some found =>
            simp only [get, hfound, Option.map_some, Option.some.injEq, exists_eq_left',
              length_nodes, bind, Except.bind]
            by_cases hindex : index > found.body.width
            · simp [hindex, throw, throwThe, MonadExceptOf.throw]
            · simp [hindex, Nat.le_of_not_lt hindex, pure, Except.pure]

/-! ## Taking out what was put in -/

theorem detach?_eq_none {b : Block} {id : String} (h : id ∉ b.ids) : b.detach? id = none := by
  induction b with
  | nil => rfl
  | cons head body next ihbody ihnext =>
      have hsibling : (cons head body next).removeSibling? id = none := by
        apply removeSibling?_eq_none
        rintro ⟨node, hnode, rfl⟩
        exact h (id_mem_of_mem_nodes hnode)
      rw [ids_cons, List.mem_cons, List.mem_append, not_or, not_or] at h
      rw [detach?, hsibling, ihbody h.2.1, ihnext h.2.2]
      rfl

/-- A statement of the block itself is taken out before anything nested. -/
theorem detach?_of_removeSibling? {b : Block} {id : String} {found : Node × Block}
    (h : b.removeSibling? id = some found) : b.detach? id = some found := by
  cases b with
  | nil => cases h
  | cons head body next => rw [detach?, h]

theorem removeSibling?_insertAt {b : Block} {node : Node} {index : Nat}
    (h : node.head.id ∉ b.ids) :
    (b.insertAt node index).removeSibling? node.head.id = some (node, b) := by
  induction b generalizing index with
  | nil => simp [insertAt_nil, Node.toBlock, removeSibling?]
  | cons head body next _ ih =>
      cases index with
      | zero => simp [insertAt_zero, removeSibling?]
      | succ index =>
          rw [ids_cons, List.mem_cons, List.mem_append, not_or, not_or] at h
          rw [insertAt, removeSibling?, if_neg (by simpa using Ne.symm h.1), ih h.2.2]
          rfl

/-- An update that keeps the statement itself keeps the statements of every block. -/
theorem map_head_nodes_updateFirst {b : Block} {id : String} {f : Node → Node}
    (hf : ∀ node, (f node).head = node.head) :
    (b.updateFirst id f).nodes.map Node.head = b.nodes.map Node.head := by
  induction b with
  | nil => rfl
  | cons head body next _ ih =>
      rw [updateFirst]
      split
      · simp [nodes, hf]
      · split
        · rfl
        · simp [nodes, ih]

theorem detach?_putIn {b : Block} {parent : Option String} {index : Nat} {node : Node}
    (hnew : node.head.id ∉ b.ids) (hparent : b.HasParent none parent) :
    (b.putIn parent index node).detach? node.head.id = some (node, b) := by
  cases parent with
  | none => exact detach?_of_removeSibling? (removeSibling?_insertAt hnew)
  | some id =>
      rw [putIn]
      replace hparent : id ∈ b.ids := by
        rcases hparent with heq | ⟨_, hid, ⟨⟩⟩
        · cases heq
        · exact hid
      induction b with
      | nil => simp at hparent
      | cons head body next ihbody ihnext =>
          -- The node is nested deeper than the statements of this block.
          have hsibling : ((cons head body next).updateFirst id fun found =>
              { found with body := found.body.insertAt node index }).removeSibling?
                node.head.id = none := by
            apply removeSibling?_eq_none
            rintro ⟨sibling, hmem, hid⟩
            have hhead := List.mem_map_of_mem (f := Node.head) hmem
            rw [map_head_nodes_updateFirst] at hhead
            · obtain ⟨known, hknown, heq⟩ := List.mem_map.mp hhead
              rw [← heq] at hid
              exact hnew (hid ▸ id_mem_of_mem_nodes hknown)
            · exact fun _ => rfl
          rw [ids_cons, List.mem_cons, List.mem_append, not_or, not_or] at hnew
          rw [updateFirst] at hsibling ⊢
          split at hsibling
          · next heq =>
            rw [if_pos heq, detach?, hsibling,
              detach?_of_removeSibling? (removeSibling?_insertAt hnew.2.1)]
          · next hne =>
            rw [if_neg hne]
            split at hsibling
            · next hbody =>
              rw [if_pos hbody, detach?, hsibling, ihbody hnew.2.1 (find?_isSome_iff.mp hbody)]
            · next hbody =>
              rw [if_neg hbody, detach?, hsibling, detach?_eq_none hnew.2.1, ihnext hnew.2.2]
              · rfl
              · rw [ids_cons, List.mem_cons, List.mem_append] at hparent
                refine (hparent.resolve_left fun heq =>
                  hne (by simpa using heq.symm)).resolve_left ?_
                exact fun hid => hbody (find?_isSome_iff.mpr hid)

theorem remove_of_insert {program inserted : Block} {parent : Option String} {index : Nat}
    {node : Node} (h : program.insert parent index node = .ok inserted) :
    inserted.remove node.head.id = .ok program := by
  obtain ⟨hnew, ⟨children, hchildren, _⟩, rfl⟩ := insert_eq_ok_iff.mp h
  have hparent := hasParent_of_children? hchildren
  have hid : node.head.id ∉ program.ids := by
    apply hnew
    rw [node_ids]
    exact .head _
  rw [remove, detach?_putIn hid hparent]

/-! ## Putting in what was taken out -/

theorem remove_eq_ok {program : Block} {id : String} {node : Node} (hnodup : program.ids.Nodup)
    (hnode : program.find? id = some node) : program.remove id = .ok (program.without id) := by
  rw [remove, detach?_eq hnodup, hnode]
  rfl

theorem insert_without {program : Block} {parent : Option String} {children : List Node}
    {index : Nat} {node : Node} (hnodup : program.ids.Nodup)
    (hchildren : program.children? parent = some children) (h : children[index]? = some node) :
    (program.without node.head.id).insert parent index node = .ok program := by
  have hnode := find?_of_children? hnodup hchildren (List.mem_of_getElem? h)
  obtain ⟨left, hleft, hindex⟩ := exists_le_length_children?_without hnodup hchildren h
  have hparent := hasParent_of_children? hleft
  obtain ⟨_, _, _, hnew⟩ := ids_disjoint_of_find? hnodup hnode
  exact insert_eq_ok_iff.mpr
    ⟨hnew, ⟨left, hleft, hindex⟩, putIn_without hnodup hchildren h hparent⟩

/-- Insertion and removal undo each other. In any program a node can be inserted exactly when its
identifiers are not in use, its parent is there, and the index is at most the number of children of
the first statement with the parent's identifier; and removing it again gives the program. In a
program with distinct identifiers any child can be removed, which takes out its own entries and
leaves all others as they are, and inserting it again gives the program. -/
theorem insert_remove_inverse :
    (∀ (program : Block) (parent : Option String) (index : Nat) (node : Node),
      ((∃ inserted, program.insert parent index node = .ok inserted) ↔
        (∀ id ∈ node.ids, id ∉ program.ids) ∧ (∀ id ∈ parent, id ∈ program.ids) ∧
          ∃ children, program.children? parent = some children ∧ index ≤ children.length) ∧
      ∀ inserted, program.insert parent index node = .ok inserted →
        inserted.remove node.head.id = .ok program) ∧
    ∀ (program : Block) (parent : Option String) (children : List Node) (index : Nat) (node : Node),
      program.ids.Nodup → program.children? parent = some children →
        children[index]? = some node →
          ∃ rest, program.remove node.head.id = .ok rest ∧
            (∃ before behind own depth,
              program.entriesFrom none 0 =
                before ++ node.toBlock.entriesFrom own depth ++ behind ∧
              rest.entriesFrom none 0 = before ++ behind) ∧
            rest.insert parent index node = .ok program := by
  refine ⟨fun program parent index node => ⟨?_, fun _ => remove_of_insert⟩,
    fun program parent children index node hnodup hchildren h => ?_⟩
  · simp only [insert_eq_ok_iff]
    constructor
    · rintro ⟨_, hnew, ⟨children, hchildren, hindex⟩, _⟩
      exact ⟨hnew, mem_ids_of_children? hchildren, children, hchildren, hindex⟩
    · rintro ⟨hnew, _, hplace⟩
      exact ⟨_, hnew, hplace, rfl⟩
  · have hnode := find?_of_children? hnodup hchildren (List.mem_of_getElem? h)
    exact ⟨_, remove_eq_ok hnodup hnode, exists_entriesFrom_eq none 0 hnodup hnode,
      insert_without hnodup hchildren h⟩

/-- An empty loop. -/
def twinLoop : Node := ⟨⟨"twin", .whileLoop, ["true"], false, false⟩, .nil⟩

/-- A loop over the empty loop. -/
def loopOverTwin : Block := .ofNodes
  [⟨⟨"top", .whileLoop, ["true"], false, false⟩, .ofNodes [twinLoop]⟩]

/-- A loop over a statement with the identifier of the loop. -/
def selfNamed : Node :=
  ⟨⟨"new", .whileLoop, ["true"], false, false⟩,
    .ofNodes [⟨⟨"new", .output, ["1"], false, false⟩, .nil⟩]⟩

/-- Behind the loop, the empty loop stands once more. Repeated identifiers do not matter to
insertion and then removal. The other way around, the nested loop is taken out and put back. -/
theorem insert_remove_inverse_loopOverTwin :
    (∃ inserted,
      (loopOverTwin.insertAt twinLoop 1).insert (some "twin") 0 selfNamed = .ok inserted ∧
        inserted.remove "new" = .ok (loopOverTwin.insertAt twinLoop 1)) ∧
    loopOverTwin.ids.Nodup ∧
      ∃ rest, loopOverTwin.remove "twin" = .ok rest ∧
        rest.insert (some "top") 0 twinLoop = .ok loopOverTwin := by
  have hnodup : loopOverTwin.ids.Nodup := by decide
  obtain ⟨hinsert, hremove⟩ := insert_remove_inverse
  obtain ⟨hplace, hundo⟩ := hinsert (loopOverTwin.insertAt twinLoop 1) (some "twin") 0 selfNamed
  obtain ⟨inserted, h⟩ := hplace.mpr ⟨by decide, by decide, _, rfl, by decide⟩
  obtain ⟨rest, hrest, _, hback⟩ := hremove loopOverTwin (some "top") _ 0 twinLoop hnodup rfl rfl
  exact ⟨⟨inserted, h, hundo inserted h⟩, hnodup, rest, hrest, hback⟩

end Block

end BlockCode
