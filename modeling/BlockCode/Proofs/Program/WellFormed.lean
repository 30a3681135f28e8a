/- # Lists that are outlines

A list of items need not be the outline of any program. It is one exactly when every item stands
where its depth, its parent and its index say, as far as the items above it can tell. Items are
looked at one after the other: the program of a list grows by one statement at its lower right end
with each item, and depth and statement of the new item leave no choice for the rest of it.

With that, taking the outline and rebuilding undo each other in both directions.
-/

import Mathlib.Data.List.Induction
import BlockCode.Proofs.Program.Preorder
import BlockCode.Proofs.Program.Visible

namespace BlockCode

/-- The item is in place right behind the items `before`: it has a parent unless it is a root, the
parent is the nearest item above it that is less deep and is less deep by one, and its index counts
the items above it that name the same parent. -/
structure OutlineItem.InPlace (before : Outline) (item : OutlineItem) : Prop where
  root : item.parent = none ↔ item.depth = 0
  nested : ∀ depth, item.depth = depth + 1 → ∃ above,
    before.reverse.find? (fun other => other.depth ≤ depth) = some above ∧
      above.depth = depth ∧ item.parent = some above.id
  index : item.index = before.countP fun other => other.parent == item.parent

/-- Every item of the list is in place behind those above it. -/
def Outline.WellFormed (items : Outline) : Prop :=
  ∀ before item behind, items = before ++ item :: behind → item.InPlace before

/-- What stands above an item fixes the item, given its statement and its depth. -/
theorem OutlineItem.InPlace.unique {before : Outline} {a b : OutlineItem} (ha : a.InPlace before)
    (hb : b.InPlace before) (hstatement : a.statement = b.statement)
    (hdepth : a.depth = b.depth) : a = b := by
  have hparent : a.parent = b.parent := by
    cases h : a.depth with
    | zero => rw [ha.root.mpr h, hb.root.mpr (hdepth ▸ h)]
    | succ depth =>
        obtain ⟨above, habove, _, hparent⟩ := ha.nested depth h
        obtain ⟨above', habove', _, hparent'⟩ := hb.nested depth (hdepth ▸ h)
        rw [habove, Option.some.injEq] at habove'
        rw [hparent, hparent', habove']
  have hindex : a.index = b.index := by
    rw [ha.index, hb.index, hparent]
  cases a
  cases b
  congr

/-- Items that name other parents do not count for an index. -/
theorem countP_eq_zero_of_parent_ne {items : Outline} {parent : Option String}
    (h : ∀ item ∈ items, item.parent ≠ parent) :
    items.countP (fun item => item.parent == parent) = 0 := by
  rw [List.countP_eq_zero]
  intro item hitem heq
  exact h item hitem (eq_of_beq heq)

/-- Items above that name other parents change nothing for an item that is in place. -/
theorem OutlineItem.InPlace.append {front before : Outline} {item : OutlineItem}
    (h : item.InPlace before) (hfront : ∀ other ∈ front, other.parent ≠ item.parent) :
    item.InPlace (front ++ before) := by
  constructor
  · exact h.root
  · intro depth hdepth
    obtain ⟨above, habove, hspec⟩ := h.nested depth hdepth
    refine ⟨above, ?_, hspec⟩
    rw [List.reverse_append, List.find?_append, habove]
    rfl
  · rw [h.index, List.countP_append, countP_eq_zero_of_parent_ne hfront, Nat.zero_add]

/-- An element of two lists in a row stands in the second or in the first of them. -/
theorem exists_append_of_append_eq {α : Type} {as bs before behind : List α} {a : α}
    (h : as ++ bs = before ++ a :: behind) :
    (∃ between, before = as ++ between ∧ bs = between ++ a :: behind) ∨
      ∃ between, as = before ++ a :: between ∧ behind = between ++ bs := by
  rcases List.append_eq_append_iff.mp h with ⟨between, rfl, hbs⟩ | ⟨between, rfl, hbehind⟩
  · exact .inl ⟨between, rfl, hbs⟩
  · cases between with
    | nil => exact .inl ⟨[], by simp, hbehind.symm⟩
    | cons first between =>
        cases hbehind
        exact .inr ⟨between, rfl, rfl⟩

namespace Block

/-! ## Outlines are well formed -/

/-- Nothing in a block is less deep than the block. -/
theorem le_depth_of_mem_outlineFrom {b : Block} {own : Option String} {depth index : Nat}
    {item : OutlineItem} (h : item ∈ b.outlineFrom own depth index) : depth ≤ item.depth := by
  have hmem := List.mem_map_of_mem (f := OutlineItem.unindexed) h
  rw [map_unindexed_outlineFrom] at hmem
  have hle : depth ≤ item.unindexed.depth := le_depth_of_mem_entriesFrom hmem
  exact hle

theorem find?_le_outlineFrom {b : Block} {own : Option String} {depth index target : Nat}
    {before behind : Outline} (h : b.outlineFrom own (depth + 1) index = before ++ behind)
    (hle : target ≤ depth) :
    before.reverse.find? (fun other => other.depth ≤ target) = none := by
  rw [List.find?_eq_none]
  intro item hitem hdepth
  have hmem : item ∈ b.outlineFrom own (depth + 1) index := by
    rw [h]
    exact List.mem_append_left _ (List.mem_reverse.mp hitem)
  have hle' := le_depth_of_mem_outlineFrom hmem
  rw [decide_eq_true_eq] at hdepth
  omega

/-- What the items of a block name as parent is the block's own parent or in the block. -/
theorem parent_ne_of_mem_outlineFrom {b : Block} {own parent : Option String}
    {depth index : Nat} (hown : own ≠ parent) (hids : ∀ id ∈ b.ids, some id ≠ parent) :
    ∀ item ∈ b.outlineFrom own depth index, item.parent ≠ parent := by
  intro item hitem heq
  rcases parent_of_mem_outlineFrom hitem with hparent | ⟨id, hid, hparent⟩
  · exact hown (hparent.symm.trans heq)
  · exact hids id hid (hparent.symm.trans heq)

/-- An item of a block stands under the block's own parent behind its siblings above it, or it is
in place within the block. -/
theorem place_of_outlineFrom_eq {b : Block} {own : Option String} {depth index : Nat}
    {before behind : Outline} {item : OutlineItem} (hnodup : b.ids.Nodup)
    (hown : ∀ id ∈ b.ids, some id ≠ own)
    (h : b.outlineFrom own depth index = before ++ item :: behind) :
    (item.parent = own ∧ item.depth = depth ∧
        item.index = index + before.countP fun other => other.parent == own) ∨
      (∃ id ∈ b.ids, item.parent = some id) ∧ item.InPlace before := by
  induction b generalizing own depth index before behind with
  | nil => cases before <;> cases h
  | cons head body next ihbody ihnext =>
      obtain ⟨_, hheadNext, hnodupBody, hnodupNext, hdisjoint⟩ := nodup_ids_cons.mp hnodup
      have hownHead : own ≠ some head.id := (hown head.id (by simp)).symm
      have hownBody : ∀ id ∈ body.ids, some id ≠ own := fun id hid => hown id (by simp [hid])
      rw [outlineFrom] at h
      cases before with
      | nil =>
          cases h
          exact .inl ⟨rfl, rfl, rfl⟩
      | cons first before =>
          rw [List.cons_append, List.cons.injEq] at h
          obtain ⟨rfl, h⟩ := h
          rcases exists_append_of_append_eq h with ⟨between, rfl, hnext⟩ | ⟨between, hbody, rfl⟩
          · -- The item is behind everything nested under the first statement.
            rcases ihnext hnodupNext (ne_own_of_cons hown) hnext with
              ⟨hparent, hdepth, hindex⟩ | ⟨⟨id, hid, hparent⟩, hplace⟩
            · have hother : ∀ other ∈ body.outlineFrom (some head.id) (depth + 1) 0,
                  other.parent ≠ own :=
                parent_ne_of_mem_outlineFrom hownHead.symm hownBody
              refine .inl ⟨hparent, hdepth, ?_⟩
              rw [List.countP_cons_of_pos (by simp), List.countP_append,
                countP_eq_zero_of_parent_ne hother, hindex]
              omega
            · refine .inr ⟨⟨id, by simp [hid], hparent⟩, ?_⟩
              rw [← List.cons_append]
              apply hplace.append
              rw [hparent, List.forall_mem_cons]
              constructor
              · exact (ne_own_of_cons hown id hid).symm
              · apply parent_ne_of_mem_outlineFrom
                · intro heq
                  cases heq
                  exact hheadNext hid
                · intro other hother heq
                  cases heq
                  exact hdisjoint id hother hid
          · rcases ihbody hnodupBody (ne_head_of_nodup hnodup) hbody with
              ⟨hparent, hdepth, hindex⟩ | ⟨⟨id, hid, hparent⟩, hplace⟩
            · refine .inr ⟨⟨head.id, by simp, hparent⟩, ?_, ?_, ?_⟩
              · rw [hparent, hdepth]
                simp
              · intro target htarget
                obtain rfl : depth = target := by omega
                refine ⟨⟨head, own, depth, index⟩, ?_, rfl, hparent⟩
                rw [List.reverse_cons, List.find?_append,
                  find?_le_outlineFrom hbody (Nat.le_refl _)]
                simp
              · rw [hparent, List.countP_cons_of_neg (by simpa using hownHead), hindex]
                exact Nat.zero_add _
            · refine .inr ⟨⟨id, by simp [hid], hparent⟩, ?_⟩
              have hfront : ∀ entry ∈ [OutlineItem.mk head own depth index],
                  entry.parent ≠ item.parent := by
                rw [hparent, List.forall_mem_singleton]
                exact (hownBody id hid).symm
              exact hplace.append hfront

/-- The outline of a program is well formed, as long as identifiers are distinct. -/
theorem wellFormed_outline {program : Block} (hnodup : program.ids.Nodup) :
    program.outline.WellFormed := by
  intro before item behind h
  rcases place_of_outlineFrom_eq hnodup program.ne_none h with
    ⟨hparent, hdepth, hindex⟩ | ⟨_, hplace⟩
  · constructor
    · simp [hparent, hdepth]
    · intro depth hdepth'
      omega
    · rw [hindex, hparent, Nat.zero_add]
  · exact hplace

/-! ## Well-formed lists are outlines -/

/-- A block takes one more statement at its lower right end, on any level down to one below its
last statement. -/
theorem exists_outlineFrom_snoc (b : Block) (own : Option String) (depth index : Nat)
    (s : Statement) {below : Nat}
    (h : below = 0 ∨ ∃ last, (b.outlineFrom own depth index).getLast? = some last ∧
      depth + below ≤ last.depth + 1) :
    ∃ (longer : Block) (item : OutlineItem),
      longer.outlineFrom own depth index = b.outlineFrom own depth index ++ [item] ∧
        item.statement = s ∧ item.depth = depth + below := by
  induction b generalizing own depth index below with
  | nil =>
      rcases h with rfl | ⟨last, hlast, _⟩
      · exact ⟨.cons s .nil .nil, ⟨s, own, depth, index⟩, rfl, rfl, rfl⟩
      · cases hlast
  | cons head body next ihbody ihnext =>
      by_cases hlevel : below = 0
      · obtain ⟨longer, item, houtline, hitem⟩ := ihnext own depth (index + 1) (.inl hlevel)
        refine ⟨.cons head body longer, item, ?_, hitem⟩
        rw [outlineFrom, outlineFrom, houtline, List.cons_append, List.append_assoc]
      · obtain ⟨last, hlast, hle⟩ := h.resolve_left hlevel
        rw [outlineFrom, ← List.singleton_append, ← List.append_assoc, List.getLast?_append]
          at hlast
        cases hnext : (next.outlineFrom own depth (index + 1)).getLast? with
        | some lastNext =>
            rw [hnext] at hlast
            cases hlast
            obtain ⟨longer, item, houtline, hitem⟩ :=
              ihnext own depth (index + 1) (.inr ⟨last, hnext, hle⟩)
            refine ⟨.cons head body longer, item, ?_, hitem⟩
            rw [outlineFrom, outlineFrom, houtline, List.cons_append, List.append_assoc]
        | none =>
            -- Nothing follows on this level, so the statement goes under the first one.
            rw [hnext, Option.none_or, List.getLast?_append] at hlast
            have hbody : below - 1 = 0 ∨ ∃ last,
                (body.outlineFrom (some head.id) (depth + 1) 0).getLast? = some last ∧
                  depth + 1 + (below - 1) ≤ last.depth + 1 := by
              cases hinner : (body.outlineFrom (some head.id) (depth + 1) 0).getLast? with
              | none =>
                  rw [hinner, Option.none_or] at hlast
                  cases hlast
                  left
                  change depth + below ≤ depth + 1 at hle
                  omega
              | some inner =>
                  rw [hinner, Option.some_or] at hlast
                  cases hlast
                  exact .inr ⟨last, rfl, by omega⟩
            obtain ⟨longer, item, houtline, hstatement, hdepth⟩ :=
              ihbody (some head.id) (depth + 1) 0 hbody
            have hdepth' : item.depth = depth + below := by omega
            refine ⟨.cons head longer next, item, ?_, hstatement, hdepth'⟩
            rw [outlineFrom, outlineFrom, houtline, List.getLast?_eq_none_iff.mp hnext]
            simp

end Block

namespace Outline

theorem WellFormed.init {items : Outline} {item : OutlineItem}
    (h : WellFormed (items ++ [item])) : items.WellFormed := by
  intro before other behind heq
  apply h before other (behind ++ [item])
  rw [heq]
  simp

theorem WellFormed.last {items : Outline} {item : OutlineItem}
    (h : WellFormed (items ++ [item])) : item.InPlace items :=
  h items item [] rfl

/-- A list that is well formed is the outline of a program. -/
theorem WellFormed.exists_outline_eq {items : Outline} (h : items.WellFormed)
    (hnodup : (items.map OutlineItem.id).Nodup) : ∃ program : Block, program.outline = items := by
  induction items using List.reverseRecOn with
  | nil => exact ⟨.nil, rfl⟩
  | append_singleton items item ih =>
      have hinit : (items.map OutlineItem.id).Nodup := by
        rw [List.map_append] at hnodup
        exact hnodup.of_append_left
      obtain ⟨program, rfl⟩ := ih h.init hinit
      have hlevel : item.depth = 0 ∨ ∃ last, program.outline.getLast? = some last ∧
          0 + item.depth ≤ last.depth + 1 := by
        cases hdepth : item.depth with
        | zero => exact .inl rfl
        | succ depth =>
            obtain ⟨above, habove, hlevel, _⟩ := h.last.nested depth hdepth
            cases hlast : program.outline.getLast? with
            | none =>
                rw [List.getLast?_eq_none_iff.mp hlast] at habove
                cases habove
            | some last =>
                refine .inr ⟨last, rfl, ?_⟩
                obtain ⟨front, hfront⟩ := List.getLast?_eq_some_iff.mp hlast
                rw [hfront, List.reverse_append, List.reverse_singleton, List.singleton_append,
                  List.find?_cons] at habove
                split at habove
                · cases habove
                  omega
                · next hshallow =>
                  rw [decide_eq_false_iff_not] at hshallow
                  omega
      obtain ⟨longer, item', houtline, hstatement, hdepth⟩ :=
        program.exists_outlineFrom_snoc none 0 0 item.statement hlevel
      have hids : longer.ids = (program.outline ++ [item]).map OutlineItem.id := by
        rw [← Block.map_id_outline, Block.outline, houtline, List.map_append, List.map_append]
        simp [OutlineItem.id, hstatement, Block.outline]
      have hformed : longer.outline.WellFormed := Block.wellFormed_outline (hids ▸ hnodup)
      rw [Block.outline, houtline] at hformed
      have heq : item' = item :=
        hformed.last.unique h.last hstatement (by rw [hdepth, Nat.zero_add])
      exact ⟨longer, by rw [Block.outline, houtline, heq]; rfl⟩

end Outline

/-- Taking the outline and rebuilding are mutually inverse. A program with distinct identifiers is
rebuilt from its outline with nothing out of reach, and a list with distinct identifiers is the
outline of what is rebuilt from it exactly when it is well formed. -/
theorem outline_rebuild_inverse :
    (∀ program : Block, program.ids.Nodup → program.outline.rebuild = ⟨program, []⟩) ∧
      ∀ items : Outline, (items.map OutlineItem.id).Nodup →
        (items.rebuild.program.outline = items ↔ items.WellFormed) := by
  constructor
  · intro program hnodup
    exact Block.rebuild_outline hnodup
  · intro items hnodup
    constructor
    · intro h
      have hids : items.rebuild.program.ids.Nodup := by
        rw [← Block.map_id_outline, h]
        exact hnodup
      rw [← h]
      exact Block.wellFormed_outline hids
    · intro h
      obtain ⟨program, rfl⟩ := h.exists_outline_eq hnodup
      rw [Block.map_id_outline] at hnodup
      rw [Block.rebuild_outline hnodup]

/-- A loop with one statement in it, closed behind it. -/
def shortLoop : Block :=
  .cons ⟨"loop", .whileLoop, ["x < 3"], false, false⟩
    (.cons ⟨"step", .increment, ["x", "1"], false, false⟩ .nil .nil)
    (.cons ⟨"done", .endWhile, [], false, false⟩ .nil .nil)

/-- The loop comes back from its outline, whose items are all in place. -/
theorem outline_rebuild_shortLoop :
    shortLoop.ids.Nodup ∧ shortLoop.outline.rebuild = ⟨shortLoop, []⟩ ∧
      (shortLoop.outline.map OutlineItem.id).Nodup ∧ shortLoop.outline.WellFormed := by
  have hnodup : shortLoop.ids.Nodup := by decide
  have hnodup' : (shortLoop.outline.map OutlineItem.id).Nodup := by decide
  have hrebuild := outline_rebuild_inverse.1 shortLoop hnodup
  refine ⟨hnodup, hrebuild, hnodup', ?_⟩
  apply (outline_rebuild_inverse.2 shortLoop.outline hnodup').mp
  rw [hrebuild]

end BlockCode
