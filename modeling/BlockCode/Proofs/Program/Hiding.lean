/- # Hiding is pruning

Hiding what is nested under some identifiers goes once through the list of items, and what it hides
hides what is nested under it. On the outline of a program this gives the outline of the program
with nothing nested under these identifiers. So nothing else is hidden, and what stays keeps its
depth, its parent and its place among the statements of that parent.
-/

import BlockCode.Proofs.Program.Places

namespace BlockCode

namespace Block

theorem ids_body_subset_of_mem_preorder {b : Block} {node : Node} (h : node ∈ b.preorder) :
    node.body.ids ⊆ b.ids := by
  rw [← map_id_preorder, ← map_id_preorder]
  exact List.map_subset _ (preorder_body_subset h)

theorem notMem_ids_body_of_mem_preorder {b : Block} {node : Node} (hnodup : b.ids.Nodup)
    (h : node ∈ b.preorder) : node.head.id ∉ node.body.ids := by
  have hnode := (find?_spec (find?_of_mem_preorder hnodup h)).2.nodup hnodup
  rw [node_ids, List.nodup_cons] at hnode
  exact hnode.1

/-- What stays is what is not nested, at any depth, under a statement that hides. -/
theorem mem_ids_pruned_iff {b : Block} {hide : Statement → Bool} {id : String}
    (hnodup : b.ids.Nodup) :
    id ∈ (b.pruned hide).ids ↔
      id ∈ b.ids ∧ ∀ node ∈ b.preorder, hide node.head = true → id ∉ node.body.ids := by
  induction b with
  | nil => simp [pruned]
  | cons head body next ihbody ihnext =>
      obtain ⟨hbody, hnext, hnodupBody, hnodupNext, hdisjoint⟩ := nodup_ids_cons.mp hnodup
      have outside {b : Block} (hout : id ∉ b.ids) : ∀ node ∈ b.preorder,
          hide node.head = true → id ∉ node.body.ids :=
        fun node hnode _ hid => hout (ids_body_subset_of_mem_preorder hnode hid)
      have hshown : id ∈ (shownBody hide head body).ids ↔
          ¬ hide head = true ∧ id ∈ (body.pruned hide).ids := by
        rw [shownBody]
        split <;> simp_all
      rw [pruned_cons, ids_cons, ids_cons, preorder, List.forall_mem_cons, List.forall_mem_append]
      simp only [List.mem_cons, List.mem_append]
      rw [hshown, ihbody hnodupBody, ihnext hnodupNext]
      constructor
      · rintro (rfl | ⟨hhide, hid, hall⟩ | ⟨hid, hall⟩)
        · exact ⟨.inl rfl, fun _ => hbody, outside hbody, outside hnext⟩
        · exact ⟨.inr (.inl hid), fun h => absurd h hhide, hall, outside (hdisjoint id hid)⟩
        · have hout : id ∉ body.ids := fun h => hdisjoint id h hid
          exact ⟨.inr (.inr hid), fun _ => hout, outside hout, hall⟩
      · rintro ⟨rfl | hid | hid, hhead, hallBody, hallNext⟩
        · exact .inl rfl
        · exact .inr (.inl ⟨fun h => hhead h hid, hid, hallBody⟩)
        · exact .inr (.inr ⟨hid, hallNext⟩)

/-- Hiding what is nested under identifiers, whether or not they are in the program, gives the
outline of the program with nothing nested under the statements that have them. -/
theorem hideBelow_outline {program : Block} (hnodup : program.ids.Nodup) (hidden : List String) :
    program.outline.hideBelow hidden =
      (program.pruned fun s => decide (s.id ∈ hidden)).outline := by
  have h : Outline.hideBelow hidden (program.outline ++ []) =
      (program.pruned fun s => decide (s.id ∈ hidden)).outline ++ Outline.hideBelow hidden [] :=
    hideBelow_outlineFrom hnodup program.ne_none (by simp) (by simp) 0 0
  rwa [List.append_nil, Outline.hideBelow, List.append_nil] at h

/-- A loop in a loop, each with a statement behind it. The inner one is collapsed. -/
def nestedWhiles : Block :=
  .cons ⟨"outer", .whileLoop, ["x < 3"], false, false⟩
    (.cons ⟨"inner", .whileLoop, ["y < 3"], false, true⟩
      (.cons ⟨"step", .increment, ["y", "1"], false, false⟩ .nil .nil)
      (.cons ⟨"next", .increment, ["x", "1"], false, false⟩ .nil .nil))
    (.cons ⟨"last", .output, ["x"], false, false⟩ .nil .nil)

/-- The inner loop is named twice, beside an identifier that is not in the program. -/
theorem hideBelow_outline_nestedWhiles :
    nestedWhiles.ids.Nodup ∧
      nestedWhiles.outline.hideBelow ["missing", "inner", "inner"] =
        (nestedWhiles.pruned fun s => decide (s.id ∈ ["missing", "inner", "inner"])).outline ∧
      (nestedWhiles.outline.hideBelow ["missing", "inner", "inner"]).map OutlineItem.id =
        ["outer", "inner", "next", "last"] := by
  have hnodup : nestedWhiles.ids.Nodup := by decide
  exact ⟨hnodup, hideBelow_outline hnodup _, by decide⟩

end Block

end BlockCode
