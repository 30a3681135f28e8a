/- # Outlines of programs

What holds of every list that is the outline of a program. Identifiers and statements come back
in the order of the program. Where identifiers are distinct, the statements that name a parent
are the ones directly nested under it. Going down the list, the depth rises by one at most, and
the parent of a statement is the nearest statement above it that is one level shallower.
-/

import BlockCode.Program.Edit
import BlockCode.Program.Rebuild

namespace BlockCode

namespace Outline

theorem position?_isSome {items : Outline} {id : String} :
    (items.position? id).isSome ↔ id ∈ items.map OutlineItem.id := by
  rw [position?, List.findIdx?_isSome]
  simp

theorem position?_cons (item : OutlineItem) (items : Outline) (id : String) :
    position? (item :: items) id =
      if item.id = id then some 0 else (items.position? id).map (· + 1) := by
  rw [position?, List.findIdx?_cons]
  by_cases hid : item.id = id
  · rw [if_pos hid, if_pos (by simpa using hid)]
  · rw [if_neg hid, if_neg (by simpa using hid)]
    rfl

/-- Where identifiers are distinct, an item is found where it stands. -/
theorem position?_eq_length {before behind : Outline} {item : OutlineItem}
    (hnodup : ((before ++ item :: behind).map OutlineItem.id).Nodup) :
    position? (before ++ item :: behind) item.id = some before.length := by
  induction before with
  | nil => simp [position?_cons]
  | cons first before ih =>
      rw [List.cons_append, List.map_cons, List.nodup_cons] at hnodup
      have hne : first.id ≠ item.id := by
        intro heq
        exact hnodup.1 (heq ▸ List.mem_map_of_mem (by simp))
      rw [List.cons_append, position?_cons, if_neg hne, ih hnodup.2]
      rfl

end Outline

namespace Block

@[simp]
theorem ids_nil : Block.nil.ids = [] := rfl

@[simp]
theorem ids_cons (head : Statement) (body next : Block) :
    (Block.cons head body next).ids = head.id :: (body.ids ++ next.ids) := by
  simp [ids, statements]

/-- Identifiers are distinct when those of the parts are, and no two parts share one. -/
theorem nodup_ids_cons {head : Statement} {body next : Block} :
    (Block.cons head body next).ids.Nodup ↔
      head.id ∉ body.ids ∧ head.id ∉ next.ids ∧ body.ids.Nodup ∧ next.ids.Nodup ∧
        ∀ id ∈ body.ids, id ∉ next.ids := by
  rw [ids_cons, List.nodup_cons, List.nodup_append, List.mem_append, not_or]
  constructor
  · rintro ⟨⟨hbody, hnext⟩, hnodup, hnodup', hdisjoint⟩
    exact ⟨hbody, hnext, hnodup, hnodup', fun id hid hid' => hdisjoint id hid id hid' rfl⟩
  · rintro ⟨hbody, hnext, hnodup, hnodup', hdisjoint⟩
    refine ⟨⟨hbody, hnext⟩, hnodup, hnodup', ?_⟩
    rintro id hid _ hid' rfl
    exact hdisjoint id hid hid'

/-- Nothing nested under a statement has its identifier. -/
theorem ne_head_of_nodup {head : Statement} {body next : Block}
    (hnodup : (Block.cons head body next).ids.Nodup) : ∀ id ∈ body.ids, some id ≠ some head.id := by
  rintro id hid heq
  cases heq
  exact (nodup_ids_cons.mp hnodup).1 hid

theorem ne_none (b : Block) : ∀ id ∈ b.ids, some id ≠ none := by
  simp

/-- What a block has to avoid, its later statements avoid too. -/
theorem ne_own_of_cons {head : Statement} {body next : Block} {own : Option String}
    (hown : ∀ id ∈ (Block.cons head body next).ids, some id ≠ own) :
    ∀ id ∈ next.ids, some id ≠ own :=
  fun id hid => hown id (by simp [hid])

theorem map_statement_outlineFrom (b : Block) (parent : Option String) (depth index : Nat) :
    (b.outlineFrom parent depth index).map OutlineItem.statement = b.statements := by
  induction b generalizing parent depth index with
  | nil => rfl
  | cons head body next ihbody ihnext => simp [outlineFrom, statements, ihbody, ihnext]

theorem map_id_outlineFrom (b : Block) (parent : Option String) (depth index : Nat) :
    (b.outlineFrom parent depth index).map OutlineItem.id = b.ids := by
  rw [ids, ← map_statement_outlineFrom b parent depth index, List.map_map]
  rfl

theorem map_statement_outline (program : Block) :
    program.outline.map OutlineItem.statement = program.statements :=
  map_statement_outlineFrom program none 0 0

theorem map_id_outline (program : Block) : program.outline.map OutlineItem.id = program.ids :=
  map_id_outlineFrom program none 0 0

theorem nodup_outline {program : Block} (hnodup : program.ids.Nodup) :
    (program.outline.map OutlineItem.id).Nodup := by
  rwa [map_id_outline]

/-- The statements directly under the parent `parent`, for a block that itself stands under
`own`. -/
def under (parent own : Option String) : Block → List Statement
  | .nil => []
  | .cons head body next =>
    (if own = parent then [head] else [])
      ++ (body.under parent (some head.id) ++ next.under parent own)

/-- The items of the outline that name the parent are the statements under it. -/
theorem filter_parent_outlineFrom (b : Block) (parent own : Option String) (depth index : Nat) :
    ((b.outlineFrom own depth index).filter fun item => item.parent == parent).map
      OutlineItem.statement = b.under parent own := by
  induction b generalizing own depth index with
  | nil => rfl
  | cons head body next ihbody ihnext =>
      by_cases hown : own = parent
      · simp [outlineFrom, under, hown, ihbody, ← ihnext parent depth (index + 1)]
      · simp [outlineFrom, under, hown, ihbody, ihnext]

/-- Nothing is under a statement that the block neither has nor stands under. -/
theorem under_eq_nil {b : Block} {parent own : Option String} (hown : own ≠ parent)
    (hids : ∀ id ∈ b.ids, some id ≠ parent) : b.under parent own = [] := by
  induction b generalizing own with
  | nil => rfl
  | cons head body next ihbody ihnext =>
      simp only [ids_cons, List.mem_cons, List.mem_append] at hids
      rw [under, if_neg hown, ihbody (hids head.id (.inl rfl)) fun id hid =>
        hids id (.inr (.inl hid)), ihnext hown fun id hid => hids id (.inr (.inr hid))]
      rfl

/-- What is directly under the parent of the whole block are the statements of the block. -/
theorem under_own {b : Block} {own : Option String} (hids : ∀ id ∈ b.ids, some id ≠ own) :
    b.under own own = b.nodes.map Node.head := by
  induction b with
  | nil => rfl
  | cons head body next ihbody ihnext =>
      simp only [ids_cons, List.mem_cons, List.mem_append] at hids
      rw [under, if_pos rfl, under_eq_nil (hids head.id (.inl rfl)) fun id hid =>
        hids id (.inr (.inl hid)), ihnext fun id hid => hids id (.inr (.inr hid))]
      rfl

end Block

end BlockCode
