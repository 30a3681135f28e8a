/- # Identifiers under edits

Each edit says what becomes of the statements of a program: an insertion brings those of its node,
a removal takes those of one node away, and every other edit keeps them all, wherever they end up.
No edit looks at what the identifiers of a program are for, so this holds of every program, also of
one in which they are repeated.

Insertion refuses a node with an identifier of the program. It does not compare the identifiers of
the node with each other. Identifiers therefore stay distinct through any sequence of edits, as long
as those of each inserted node are.
-/

import BlockCode.Program.Drag
import BlockCode.Proofs.Outcome
import BlockCode.Proofs.Program.Drag
import BlockCode.Proofs.Program.Recovery

namespace BlockCode

/-- One step of editing. A drag ends in the last one, with any projection. -/
inductive Edit where
  | insert (parent : Option String) (index : Nat) (node : Node)
  | remove (id : String)
  | move (id : String) (depth : Nat) (parent : Option String) (index : Nat)
  | updateMark (id : String) (mark : Mark) (update : Bool → Bool)
  | applyProjection (active onto : String) (projection : Projection)

namespace Edit

/-- The program that the edit gives, or why it does not apply. -/
def apply (program : Block) : Edit → Except EditError Block
  | .insert parent index node => program.insert parent index node
  | .remove id => program.remove id
  | .move id depth parent index => program.move id depth parent index
  | .updateMark id mark update => program.updateMark id mark update
  | .applyProjection active onto projection => program.applyProjection active onto projection

/-- The identifiers that the edit brings into the program. -/
def incomingIds : Edit → List String
  | .insert _ _ node => node.ids
  | _ => []

end Edit

/-- The program after a sequence of edits. One that does not apply leaves the program as it is. -/
def Block.afterEdits (program : Block) (edits : List Edit) : Block :=
  edits.foldl (fun program edit => (edit.apply program).toOption.getD program) program

namespace Block

/-! ## Statements under each edit -/

/-- The first node of an identifier is updated in its place. -/
theorem exists_statements_updateFirst {b : Block} {id : String} {node : Node}
    (h : b.find? id = some node) (f : Node → Node) :
    ∃ before behind, b.statements = before ++ node.toBlock.statements ++ behind ∧
      (b.updateFirst id f).statements = before ++ (f node).toBlock.statements ++ behind := by
  induction b with
  | nil => cases h
  | cons head body next ihbody ihnext =>
      rw [find?] at h
      rw [updateFirst]
      split at h
      · next hid =>
        cases h
        rw [if_pos hid]
        exact ⟨[], next.statements, by simp [Node.toBlock, statements],
          by simp [Node.toBlock, statements]⟩
      · next hid =>
        rw [if_neg hid]
        rcases Option.or_eq_some_iff.mp h with hbody | ⟨hbody, hnext⟩
        · obtain ⟨before, behind, hold, hnew⟩ := ihbody hbody
          rw [hbody, if_pos (Option.isSome_some)]
          refine ⟨head :: before, behind ++ next.statements, ?_, ?_⟩
          · rw [statements, hold]
            simp
          · rw [statements, hnew]
            simp
        · obtain ⟨before, behind, hold, hnew⟩ := ihnext hnext
          rw [hbody, if_neg (by simp)]
          refine ⟨head :: (body.statements ++ before), behind, ?_, ?_⟩
          · rw [statements, hold]
            simp
          · rw [statements, hnew]
            simp

theorem statements_perm_of_removeSibling? {b rest : Block} {id : String} {node : Node}
    (h : b.removeSibling? id = some (node, rest)) :
    b.statements.Perm (node.toBlock.statements ++ rest.statements) := by
  induction b generalizing rest with
  | nil => cases h
  | cons head body next _ ih =>
      rw [removeSibling?] at h
      split at h
      · cases h
        simp [Node.toBlock, statements]
      · obtain ⟨⟨node', rest'⟩, hnext, heq⟩ := Option.map_eq_some_iff.mp h
        cases heq
        rw [statements, statements]
        refine (((ih hnext).append_left _).cons _).trans ?_
        exact (List.perm_append_comm_assoc _ _ _).cons head |>.trans List.perm_middle.symm

/-- What is taken out and what is left are the statements of the program. -/
theorem statements_perm_of_detach? {b rest : Block} {id : String} {node : Node}
    (h : b.detach? id = some (node, rest)) :
    b.statements.Perm (node.toBlock.statements ++ rest.statements) := by
  induction b generalizing rest with
  | nil => cases h
  | cons head body next ihbody ihnext =>
      rw [detach?] at h
      split at h
      · next hsibling =>
        cases h
        exact statements_perm_of_removeSibling? hsibling
      · split at h
        · next hbody =>
          cases h
          rw [statements, statements]
          refine (((ihbody hbody).append_right _).cons _).trans ?_
          rw [List.append_assoc]
          exact List.perm_middle.symm
        · obtain ⟨⟨node', rest'⟩, hnext, heq⟩ := Option.map_eq_some_iff.mp h
          cases heq
          rw [statements, statements]
          refine (((ihnext hnext).append_left _).cons _).trans ?_
          exact (List.perm_append_comm_assoc _ _ _).cons head |>.trans List.perm_middle.symm

/-- Insertion adds the statements of the node, none of which has an identifier of the program. -/
theorem statements_perm_of_insert {program inserted : Block} {parent : Option String} {index : Nat}
    {node : Node} (h : program.insert parent index node = .ok inserted) :
    inserted.statements.Perm (node.toBlock.statements ++ program.statements) ∧
      ∀ id ∈ node.ids, id ∉ program.ids := by
  rw [Block.insert.eq_def] at h
  split at h
  · cases h
  · next hunused =>
    refine ⟨?_, fun id hid hused => ?_⟩
    · split at h
      · split at h
        · cases h
        · cases h
          exact statements_insertAt node index program
      · next id =>
        obtain ⟨found, hfound, h⟩ := bind_eq_ok_iff.mp h
        dsimp only at h
        split at h
        · cases h
        · cases h
          obtain ⟨before, behind, hold, hnew⟩ :=
            exists_statements_updateFirst (find?_of_get hfound) fun found =>
              { found with body := found.body.insertAt node index }
          have hbody : (Node.toBlock ⟨found.head, found.body.insertAt node index⟩).statements.Perm
              (node.toBlock.statements ++ found.toBlock.statements) := by
            simp only [Node.toBlock, statements, List.append_nil]
            refine ((statements_insertAt node index found.body).cons _).trans ?_
            simpa [Node.toBlock, statements] using
              (@List.perm_middle _ found.head (node.head :: node.body.statements)
                found.body.statements).symm
          rw [hold, hnew]
          refine ((hbody.append_left before).append_right behind).trans ?_
          simpa using List.perm_append_comm_assoc before node.toBlock.statements
            (found.toBlock.statements ++ behind)
    · have hnone := List.find?_eq_none.mp hunused id hid
      exact hnone (find?_isSome_iff.mpr hused)

end Block

namespace Outline

/-- The statements at the positions of a forest are those of the items. -/
theorem statements_block {items : Outline} {forest : PositionForest}
    (h : ∀ i ∈ forest.positions, i < items.length) :
    (forest.block items).statements =
      forest.positions.filterMap fun i => items[i]?.map OutlineItem.statement := by
  induction forest with
  | nil => rfl
  | cons i body next ihbody ihnext =>
      rw [PositionForest.positions, List.forall_mem_cons, List.forall_mem_append] at h
      have hitem := List.getElem?_eq_getElem h.1
      rw [PositionForest.block, PositionForest.positions, hitem,
        List.filterMap_cons_some (b := items[i].statement) (by rw [hitem]; rfl),
        List.filterMap_append, ← ihbody h.2.1, ← ihnext h.2.2]
      rfl

/-- Rebuilding keeps the statements of any list. -/
theorem statements_rebuild_perm (items : Outline) :
    items.rebuild.program.statements.Perm (items.map OutlineItem.statement) := by
  have hpositions := items.cutsCircles_cuts.positions_perm
  have hitems : (List.range items.length).map (fun i => items[i]?) = items.map some := by
    simpa using @map_getElem?_filter_range items (fun _ => true) (fun _ => true) fun _ _ _ => rfl
  have hall : (List.range items.length).filterMap (fun i => items[i]?.map OutlineItem.statement) =
      items.map OutlineItem.statement := by
    calc
      _ = ((List.range items.length).map fun i => items[i]?).filterMap
          (Option.map OutlineItem.statement) := by
        rw [List.filterMap_map]
        rfl
      _ = items.map OutlineItem.statement := by
        rw [hitems, List.filterMap_map]
        exact congrFun (List.filterMap_eq_map (f := OutlineItem.statement)) items
  rw [rebuild, assemble_eq_block, statements_block, ← hall]
  · exact hpositions.filterMap _
  · intro i hi
    exact List.mem_range.mp (hpositions.subset hi)

theorem reorder_perm {items : Outline} {source target : Nat} (hsource : source < items.length)
    (htarget : target < items.length) : (items.reorder source target).Perm items := by
  rw [reorder_eq (List.getElem?_eq_getElem hsource) htarget]
  refine List.perm_middle.trans ?_
  rw [List.take_append_drop]
  exact List.getElem_cons_eraseIdx_perm hsource

/-- An item that is placed elsewhere keeps its statement. -/
theorem map_statement_modify {place : OutlineItem → OutlineItem} (items : Outline) (source : Nat)
    (h : ∀ item, (place item).statement = item.statement) :
    (items.modify source place).map OutlineItem.statement = items.map OutlineItem.statement := by
  apply List.ext_getElem?
  intro i
  rw [List.getElem?_map, List.getElem?_map, List.getElem?_modify]
  cases items[i]? with
  | none => rfl
  | some item =>
      split
      · exact congrArg some (h item)
      · rfl

end Outline

namespace Block

/-- A node that is moved is taken out and inserted again. -/
theorem exists_detach?_of_move {program moved : Block} {id : String} {depth : Nat}
    {parent : Option String} {index : Nat} (h : program.move id depth parent index = .ok moved) :
    ∃ node rest, program.detach? id = some (node, rest) ∧
      rest.insert parent index node = .ok moved := by
  rw [move] at h
  obtain ⟨_, _, h⟩ := bind_eq_ok_iff.mp h
  -- Whatever the new parent is, its depth is compared before the node is taken out.
  have taken {parentDepth : Option Nat} {result : Except EditError Block}
      (h : (do
        if depth ≠ parentDepth.elim 0 (· + 1) then throw (EditError.depthMismatch depth parentDepth)
        result) = .ok moved) : result = .ok moved := by
    dsimp only at h
    split at h
    · cases h
    · exact h
  cases parent
  case' some p =>
    obtain ⟨_, _, h⟩ := bind_eq_ok_iff.mp h
    dsimp only at h
    split at h
    · cases h
    obtain ⟨_, _, h⟩ := bind_eq_ok_iff.mp h
  all_goals
    replace h := taken h
    split at h
    · cases h
    · next node rest hdetach => exact ⟨node, rest, hdetach, h⟩

theorem statements_perm_of_move {program moved : Block} {id : String} {depth : Nat}
    {parent : Option String} {index : Nat} (h : program.move id depth parent index = .ok moved) :
    moved.statements.Perm program.statements := by
  obtain ⟨node, rest, hdetach, hinsert⟩ := exists_detach?_of_move h
  exact (statements_perm_of_insert hinsert).1.trans (statements_perm_of_detach? hdetach).symm

/-- Updating a mark keeps all identifiers in their places. -/
theorem ids_of_updateMark {program updated : Block} {id : String} {mark : Mark}
    {update : Bool → Bool} (h : program.updateMark id mark update = .ok updated) :
    updated.ids = program.ids := by
  rw [updateMark] at h
  obtain ⟨node, hnode, ⟨⟩⟩ := bind_eq_ok_iff.mp h
  obtain ⟨before, behind, hold, hnew⟩ :=
    exists_statements_updateFirst (find?_of_get hnode) fun node =>
      { node with head := node.head.updateMark mark update }
  have hid : (node.head.updateMark mark update).id = node.head.id := by
    cases mark <;> rfl
  rw [ids, ids, hold, hnew]
  simp [Node.toBlock, statements, hid]

/-- A drag that is applied changes places, depths and parents only. -/
theorem statements_perm_of_applyProjection {program dropped : Block} {active onto : String}
    {projection : Projection} (h : program.applyProjection active onto projection = .ok dropped) :
    dropped.statements.Perm program.statements := by
  rw [applyProjection] at h
  obtain ⟨subtree, _, h⟩ := bind_eq_ok_iff.mp h
  dsimp only at h
  split at h
  · cases h
  · split at h
    · next source hsource =>
      split at h
      · next target htarget =>
        split at h
        · cases h
        · cases h
          refine (Outline.statements_rebuild_perm _).trans ?_
          rw [← map_statement_outline]
          refine ((Outline.reorder_perm ?_ ?_).map _).trans (.of_eq ?_)
          · rw [List.length_modify]
            exact Outline.lt_length_of_position? hsource
          · rw [List.length_modify]
            exact Outline.lt_length_of_position? htarget
          · exact Outline.map_statement_modify program.outline source fun _ => rfl
      · cases h
    · cases h

end Block

namespace Edit

/-! ## Identifiers under each edit -/

/-- What an edit does to the identifiers of any program: it adds those that it brings, which the
program does not have, and only a removal takes some away. -/
theorem exists_ids_perm_of_apply {program edited : Block} {edit : Edit}
    (h : edit.apply program = .ok edited) :
    ∃ outgoing, (outgoing ++ edited.ids).Perm (edit.incomingIds ++ program.ids) ∧
      (outgoing = [] ∨ edit.incomingIds = []) ∧ ∀ id ∈ edit.incomingIds, id ∉ program.ids := by
  cases edit with
  | insert parent index node =>
      obtain ⟨hstatements, hunused⟩ := Block.statements_perm_of_insert h
      have hids := hstatements.map Statement.id
      rw [List.map_append] at hids
      exact ⟨[], hids, .inl rfl, hunused⟩
  | remove id =>
      rw [apply, Block.remove] at h
      split at h
      · next node rest hdetach =>
        cases h
        have hids := (Block.statements_perm_of_detach? hdetach).map Statement.id
        rw [List.map_append] at hids
        exact ⟨node.ids, hids.symm, .inr rfl, by simp [incomingIds]⟩
      · cases h
  | move id depth parent index =>
      have hids := (Block.statements_perm_of_move h).map Statement.id
      exact ⟨[], hids, .inl rfl, by simp [incomingIds]⟩
  | updateMark id mark update =>
      exact ⟨[], .of_eq (Block.ids_of_updateMark h), .inl rfl, by simp [incomingIds]⟩
  | applyProjection active onto projection =>
      have hids := (Block.statements_perm_of_applyProjection h).map Statement.id
      exact ⟨[], hids, .inl rfl, by simp [incomingIds]⟩

/-- An edit keeps identifiers distinct exactly when those that it brings are. -/
theorem nodup_ids_of_apply_iff {program edited : Block} {edit : Edit}
    (hnodup : program.ids.Nodup) (h : edit.apply program = .ok edited) :
    edited.ids.Nodup ↔ edit.incomingIds.Nodup := by
  obtain ⟨outgoing, hids, hone, hunused⟩ := exists_ids_perm_of_apply h
  constructor
  · intro hedited
    rcases hone with rfl | hnone
    · rw [List.nil_append] at hids
      exact (List.nodup_append.mp (hids.nodup_iff.mp hedited)).1
    · rw [hnone]
      exact List.nodup_nil
  · intro hincoming
    have hall : (edit.incomingIds ++ program.ids).Nodup :=
      List.nodup_append'.mpr ⟨hincoming, hnodup, fun id hid hused => hunused id hid hused⟩
    exact (List.nodup_append.mp (hids.nodup_iff.mpr hall)).2.1

end Edit

namespace Block

/-- Going through the edits one by one keeps identifiers distinct where each step does. -/
theorem nodup_ids_afterEdits {edits : List Edit} {program : Block} (hnodup : program.ids.Nodup)
    (hincoming : ∀ edit ∈ edits, edit.incomingIds.Nodup) :
    (program.afterEdits edits).ids.Nodup := by
  induction edits generalizing program with
  | nil => exact hnodup
  | cons edit edits ih =>
      rw [List.forall_mem_cons] at hincoming
      refine ih ?_ hincoming.2
      change ((edit.apply program).toOption.getD program).ids.Nodup
      cases happly : edit.apply program with
      | error e => exact hnodup
      | ok edited => exact (Edit.nodup_ids_of_apply_iff hnodup happly).mpr hincoming.1

/-- Identifiers stay distinct under edits. An edit of a program with distinct identifiers gives one
with distinct identifiers exactly when those that it brings are distinct, which only an insertion
can fail, and then so does any sequence of edits. -/
theorem edits_keep_ids_distinct {program : Block} (hnodup : program.ids.Nodup) :
    (∀ (edit : Edit) (edited : Block), edit.apply program = .ok edited →
      (edited.ids.Nodup ↔ edit.incomingIds.Nodup)) ∧
    ∀ edits : List Edit, (∀ edit ∈ edits, edit.incomingIds.Nodup) →
      (program.afterEdits edits).ids.Nodup :=
  ⟨fun _ _ h => Edit.nodup_ids_of_apply_iff hnodup h, fun _ => nodup_ids_afterEdits hnodup⟩

/-- A loop is put in with a statement in it and one behind it. The nested one is moved in front of
the loop, the last one is dropped into it, the loop is hidden, and the first one is taken away.
Putting it back under a used identifier does not apply. -/
def editingRun : List Edit := [
  .insert none 0 ⟨⟨"a", .whileLoop, ["true"], false, false⟩,
    .ofNodes [⟨⟨"b", .output, ["1"], false, false⟩, .nil⟩]⟩,
  .insert none 1 ⟨⟨"c", .output, ["2"], false, false⟩, .nil⟩,
  .move "b" 0 none 0,
  .applyProjection "c" "c" ⟨1, some "a", 0, 1⟩,
  .updateMark "a" .collapsed (!·),
  .remove "b",
  .insert none 0 ⟨⟨"c", .output, ["3"], false, false⟩, .nil⟩]

/-- All edits but the last one apply. -/
theorem edits_keep_ids_distinct_editingRun :
    nil.ids.Nodup ∧ (∀ edit ∈ editingRun, edit.incomingIds.Nodup) ∧
      nil.afterEdits editingRun = .ofNodes [⟨⟨"a", .whileLoop, ["true"], false, true⟩,
        .ofNodes [⟨⟨"c", .output, ["2"], false, false⟩, .nil⟩]⟩] ∧
      (nil.afterEdits editingRun).ids.Nodup := by
  have hincoming : ∀ edit ∈ editingRun, edit.incomingIds.Nodup := by decide
  exact ⟨List.nodup_nil, hincoming, by decide,
    (@edits_keep_ids_distinct nil List.nodup_nil).2 editingRun hincoming⟩

/-- Insertion accepts a node that has one identifier twice, also into the empty program. -/
theorem insert_repeats_id :
    ∃ inserted, nil.ids.Nodup ∧
      nil.insert none 0 ⟨⟨"a", .whileLoop, ["true"], false, false⟩,
        .ofNodes [⟨⟨"a", .output, ["1"], false, false⟩, .nil⟩]⟩ = .ok inserted ∧
      inserted.ids = ["a", "a"] ∧ ¬ inserted.ids.Nodup :=
  ⟨_, List.nodup_nil, rfl, rfl, by decide⟩

end Block

end BlockCode
