/- # Lines and the tree

The checks see a line between the lines around it and find its neighbours, what it is nested
under and what is nested under it by the names of parents. In a program with distinct identifiers
these are the neighbours, the ancestors and the body that the line's statement has in the tree.
-/

import BlockCode.Check.Line
import BlockCode.Proofs.Program.Visible

namespace BlockCode

/-- A statement of a program with what the tree has around it: what is nested under it, what it
is nested under with the nearest first, and its neighbours in the same list. -/
structure Spot where
  head : Statement
  body : Block
  ancestors : List Statement
  previous : Option Statement
  next : Option Statement

namespace Block

/-- The first statement of the block. -/
def first? : Block → Option Statement
  | .nil => none
  | .cons head _ _ => some head

/-- The statements of a block that stands under the ancestors, in the order of the outline, each
in its surroundings. -/
def spotsUnder (ancestors : List Statement) (previous : Option Statement) : Block → List Spot
  | .nil => []
  | .cons head body next =>
    ⟨head, body, ancestors, previous, next.first?⟩
      :: (body.spotsUnder (head :: ancestors) none ++ next.spotsUnder ancestors (some head))

/-- The statements of a program in their surroundings. -/
def spots (program : Block) : List Spot :=
  program.spotsUnder [] none

end Block

namespace Line

/-- What the line finds around itself is what the tree has around the statement. -/
structure Agrees (line : Line) (spot : Spot) : Prop where
  statement : line.statement = spot.head
  depth : line.item.depth = spot.ancestors.length
  ancestors : line.ancestors.map OutlineItem.statement = spot.ancestors
  previous : line.previousSibling?.map OutlineItem.statement = spot.previous
  next : line.nextSibling?.map OutlineItem.statement = spot.next
  body : line.hasBody = !spot.body.isEmpty

end Line

namespace Outline

/-- The lines of a part of an outline. -/
def linesWithin (before : Outline) (behind : Outline) : Outline → List Line
  | [] => []
  | item :: items =>
    ⟨before, item, items ++ behind⟩ :: linesWithin (before ++ [item]) behind items

theorem linesFrom_eq (before items : Outline) :
    linesFrom before items = linesWithin before [] items := by
  induction items generalizing before with
  | nil => rfl
  | cons item items ih => rw [linesFrom, linesWithin, ih, List.append_nil]

theorem linesWithin_append (before behind items items' : Outline) :
    linesWithin before behind (items ++ items') =
      linesWithin before (items' ++ behind) items
        ++ linesWithin (before ++ items) behind items' := by
  induction items generalizing before with
  | nil => simp [linesWithin]
  | cons item items ih => simp [linesWithin, ih]

end Outline

/-- What is known around a part of an outline that is the outline of a block under `own`. -/
structure Surrounds (before behind : Outline) (b : Block) (own : Option String)
    (ancestors : List Statement) (previous : Option Statement) (all : Outline) : Prop where
  nodup : b.ids.Nodup
  own_ne : ∀ id ∈ b.ids, some id ≠ own
  /-- The nearest statement before that names the block's parent. -/
  nearest : (before.reverse.find? fun item => item.parent == own).map OutlineItem.statement =
    previous
  /-- Nothing behind names the block's parent. -/
  behind_ne : ∀ item ∈ behind, item.parent ≠ own
  /-- Nothing before or behind is nested under a statement of the block. -/
  apart : ∀ item ∈ before ++ behind, ∀ id ∈ b.ids, item.parent ≠ some id
  /-- Going up from the block leads to its ancestors. -/
  upward : ∀ item fuel, item.parent = own → ancestors.length ≤ fuel →
    (Line.enclosing all fuel item).map OutlineItem.statement = ancestors
  length_le : ancestors.length ≤ before.length

namespace Surrounds

variable {before behind all : Outline} {head : Statement} {body next : Block}
  {own : Option String} {ancestors : List Statement} {previous : Option Statement}
  {depth index : Nat}
  (h : Surrounds before behind (.cons head body next) own ancestors previous all)

include h

/-- Nothing nested under the first statement names the block's own parent. -/
theorem parent_ne_own {item : OutlineItem} {depth index : Nat}
    (hitem : item ∈ body.outlineFrom (some head.id) depth index) : item.parent ≠ own := by
  rcases Block.parent_of_mem_outlineFrom hitem with hparent | ⟨id, hid, hparent⟩
  · rw [hparent]
    exact h.own_ne _ (by simp)
  · rw [hparent]
    exact h.own_ne _ (by simp [hid])

/-- Nothing behind the first statement but its body is nested under it or under the body. -/
theorem parent_ne_of_mem {item : OutlineItem} {depth index : Nat} {id : String}
    (hitem : item ∈ next.outlineFrom own depth index ++ behind)
    (hid : id = head.id ∨ id ∈ body.ids) : item.parent ≠ some id := by
  obtain ⟨_, hnext, _, _, hdisjoint⟩ := Block.nodup_ids_cons.mp h.nodup
  have hmem : id ∈ (Block.cons head body next).ids := by
    rcases hid with rfl | hid
    · simp
    · simp [hid]
  rcases List.mem_append.mp hitem with hitem | hitem
  · rcases Block.parent_of_mem_outlineFrom hitem with hparent | ⟨other, hother, hparent⟩
    · rw [hparent]
      exact (h.own_ne id hmem).symm
    · rw [hparent]
      rintro heq
      cases heq
      rcases hid with rfl | hid
      · exact hnext hother
      · exact hdisjoint _ hid hother
  · exact h.apart item (List.mem_append_right _ hitem) id hmem

/-- The first line of a block agrees with the tree. -/
theorem agrees_head (hdepth : depth = ancestors.length)
    (hall : all = before ++ (Block.cons head body next).outlineFrom own depth index ++ behind) :
    Line.Agrees ⟨before, ⟨head, own, depth, index⟩,
        body.outlineFrom (some head.id) (depth + 1) 0
          ++ next.outlineFrom own depth (index + 1) ++ behind⟩
      ⟨head, body, ancestors, previous, next.first?⟩ := by
  refine ⟨rfl, hdepth, ?_, h.nearest, ?_, ?_⟩
  · have hline : Line.all ⟨before, ⟨head, own, depth, index⟩,
        body.outlineFrom (some head.id) (depth + 1) 0
          ++ next.outlineFrom own depth (index + 1) ++ behind⟩ = all := by
      rw [hall, Line.all, Block.outlineFrom]
      simp
    rw [Line.ancestors, hline]
    apply h.upward _ _ rfl
    rw [hall, List.length_append, List.length_append]
    have hlength := h.length_le
    omega
  · have hbody : (body.outlineFrom (some head.id) (depth + 1) 0).find?
        (fun item => item.parent == own) = none := by
      rw [List.find?_eq_none]
      intro item hitem
      simpa using h.parent_ne_own hitem
    have hbehind : behind.find? (fun item => item.parent == own) = none := by
      rw [List.find?_eq_none]
      intro item hitem
      simpa using h.behind_ne item hitem
    rw [Line.nextSibling?, List.append_assoc, List.find?_append, hbody, Option.none_or,
      List.find?_append, hbehind, Option.or_none]
    cases next with
    | nil => rfl
    | cons first _ _ => simp [Block.outlineFrom, Block.first?]
  · have hrest : ∀ item ∈ (next.outlineFrom own depth (index + 1) ++ behind).head?,
        item.parent ≠ some head.id := fun item hitem =>
      h.parent_ne_of_mem (List.mem_of_mem_head? hitem) (.inl rfl)
    rw [Line.hasBody, List.append_assoc]
    cases body with
    | nil =>
        rw [Block.outlineFrom, List.nil_append]
        cases hfirst : (next.outlineFrom own depth (index + 1) ++ behind).head? with
        | none => rfl
        | some item => simpa [Block.isEmpty, OutlineItem.id] using hrest item hfirst
    | cons first _ _ => simp [Block.outlineFrom, Block.isEmpty, OutlineItem.id]

/-- What surrounds the body of the first statement. -/
theorem inner (hdepth : depth = ancestors.length)
    (hall : all = before ++ (Block.cons head body next).outlineFrom own depth index ++ behind)
    (hids : (all.map OutlineItem.id).Nodup) :
    Surrounds (before ++ [⟨head, own, depth, index⟩])
      (next.outlineFrom own depth (index + 1) ++ behind) body (some head.id)
      (head :: ancestors) none all := by
  obtain ⟨hbody, _, hnodup, _, _⟩ := Block.nodup_ids_cons.mp h.nodup
  have hhead : head.id ∈ (Block.cons head body next).ids := by simp
  refine ⟨hnodup, Block.ne_head_of_nodup h.nodup, ?_, ?_, ?_, ?_, ?_⟩
  · rw [List.reverse_append, List.reverse_singleton, List.singleton_append,
      List.find?_cons_of_neg (by simpa using (h.own_ne _ hhead).symm)]
    have hnone : before.reverse.find? (fun item => item.parent == some head.id) = none := by
      rw [List.find?_eq_none]
      intro item hitem
      simpa using h.apart item (List.mem_append_left _ (List.mem_reverse.mp hitem)) _ hhead
    rw [hnone]
    rfl
  · intro item hitem
    exact h.parent_ne_of_mem hitem (.inl rfl)
  · intro item hitem id hid
    have hmem : id ∈ (Block.cons head body next).ids := by simp [hid]
    rw [List.append_assoc, List.mem_append, List.mem_append, List.mem_singleton] at hitem
    rcases hitem with hitem | rfl | hitem
    · exact h.apart item (List.mem_append_left _ hitem) id hmem
    · exact (h.own_ne id hmem).symm
    · exact h.parent_ne_of_mem hitem (.inr hid)
  · intro item fuel hparent hfuel
    rw [List.length_cons] at hfuel
    obtain ⟨fuel, rfl⟩ : ∃ n, fuel = n + 1 := ⟨fuel - 1, by omega⟩
    have hfind : all.find? (fun other => other.id == head.id) =
        some ⟨head, own, depth, index⟩ := by
      have hmem : ⟨head, own, depth, index⟩ ∈ all := by
        rw [hall, Block.outlineFrom]
        simp
      exact Outline.find?_id hids hmem
    rw [Line.enclosing, hparent, Option.bind_some, hfind]
    dsimp only
    rw [List.map_cons, h.upward _ fuel rfl (by omega)]
  · rw [List.length_append, List.length_cons, List.length_singleton]
    have hlength := h.length_le
    omega

/-- What surrounds the statements behind the first one. -/
theorem after :
    Surrounds (before ++ (⟨head, own, depth, index⟩ ::
        body.outlineFrom (some head.id) (depth + 1) 0)) behind next own ancestors (some head)
      all := by
  obtain ⟨_, hnext, _, hnodup, hdisjoint⟩ := Block.nodup_ids_cons.mp h.nodup
  refine ⟨hnodup, Block.ne_own_of_cons h.own_ne, ?_, h.behind_ne, ?_, h.upward, ?_⟩
  · have hbody : (body.outlineFrom (some head.id) (depth + 1) 0).reverse.find?
        (fun item => item.parent == own) = none := by
      rw [List.find?_eq_none]
      intro item hitem
      simpa using h.parent_ne_own (List.mem_reverse.mp hitem)
    rw [List.reverse_append, List.reverse_cons, List.append_assoc, List.find?_append, hbody,
      Option.none_or]
    simp
  · intro item hitem id hid
    have hmem : id ∈ (Block.cons head body next).ids := by simp [hid]
    rw [List.append_assoc, List.cons_append, List.mem_append, List.mem_cons, List.mem_append]
      at hitem
    rcases hitem with hitem | rfl | hitem | hitem
    · exact h.apart item (List.mem_append_left _ hitem) id hmem
    · exact (h.own_ne id hmem).symm
    · rcases Block.parent_of_mem_outlineFrom hitem with hparent | ⟨other, hother, hparent⟩
      · rw [hparent]
        rintro heq
        cases heq
        exact hnext hid
      · rw [hparent]
        rintro heq
        cases heq
        exact hdisjoint _ hother hid
    · exact h.apart item (List.mem_append_right _ hitem) id hmem
  · rw [List.length_append]
    have hlength := h.length_le
    omega

end Surrounds

/-- The lines of a part of an outline that is the outline of a block are, one by one, the
statements of the block in their surroundings. -/
theorem agrees_linesWithin {b : Block} {before behind all : Outline} {own : Option String}
    {ancestors : List Statement} {previous : Option Statement} {depth index : Nat}
    (h : Surrounds before behind b own ancestors previous all) (hdepth : depth = ancestors.length)
    (hall : all = before ++ b.outlineFrom own depth index ++ behind)
    (hids : (all.map OutlineItem.id).Nodup) :
    List.Forall₂ Line.Agrees
      (Outline.linesWithin before behind (b.outlineFrom own depth index))
      (b.spotsUnder ancestors previous) := by
  induction b generalizing before behind own ancestors previous depth index with
  | nil => exact .nil
  | cons head body next ihbody ihnext =>
      have hhead := h.agrees_head hdepth hall
      have hbody : all = before ++ [⟨head, own, depth, index⟩]
          ++ body.outlineFrom (some head.id) (depth + 1) 0
          ++ (next.outlineFrom own depth (index + 1) ++ behind) := by
        rw [hall, Block.outlineFrom]
        simp
      have hnext : all = before ++ (⟨head, own, depth, index⟩ ::
          body.outlineFrom (some head.id) (depth + 1) 0)
          ++ next.outlineFrom own depth (index + 1) ++ behind := by
        rw [hall, Block.outlineFrom]
        simp
      have hinner := ihbody (h.inner hdepth hall hids)
        (by rw [hdepth, List.length_cons]) hbody
      have hafter := ihnext h.after hdepth hnext
      rw [Block.outlineFrom, Outline.linesWithin, Outline.linesWithin_append, Block.spotsUnder]
      refine .cons hhead (List.rel_append hinner ?_)
      rw [List.append_assoc]
      exact hafter

/-- Where identifiers are distinct, the lines of a program are its statements in their
surroundings. -/
theorem Block.agrees_lines {program : Block} (hnodup : program.ids.Nodup) :
    List.Forall₂ Line.Agrees program.outline.lines program.spots := by
  have hroot : Surrounds [] [] program none [] none program.outline := by
    refine ⟨hnodup, program.ne_none, rfl, by simp, by simp, ?_, Nat.le_refl _⟩
    intro item fuel hparent _
    cases fuel with
    | zero => rfl
    | succ fuel =>
        rw [Line.enclosing, hparent]
        rfl
  rw [Outline.lines, Outline.linesFrom_eq]
  exact agrees_linesWithin hroot rfl (by simp [Block.outline]) (Block.nodup_outline hnodup)

end BlockCode
