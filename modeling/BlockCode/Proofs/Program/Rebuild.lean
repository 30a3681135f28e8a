/- # Rebuilding a program

A list of items describes a program when each parent names in it, in the right order, the
statements that stand under that parent in the program; how the statements of different parents
are mixed does not matter, and neither do the depths. From such a list the program is rebuilt
as it was, and nothing is out of reach.
-/

import BlockCode.Proofs.Program.Outline

namespace BlockCode

namespace Outline

/-- The statements whose items name the parent, in list order. -/
def under (items : Outline) (parent : Option String) : List Statement :=
  (items.filter fun item => item.parent == parent).map OutlineItem.statement

theorem mem_under {items : Outline} {parent : Option String} {s : Statement} :
    s ∈ items.under parent ↔ ∃ item ∈ items, item.parent = parent ∧ item.statement = s := by
  simp [under, and_assoc]

/-- The list has the statements of the program, under the parents of the program. -/
structure Describes (items : Outline) (program : Block) : Prop where
  statements : (items.map OutlineItem.statement).Perm program.statements
  under : ∀ parent, items.under parent = program.under parent none

/-- An outline describes its program. -/
theorem describes_outline (program : Block) : Describes program.outline program := by
  constructor
  · rw [Block.map_statement_outline]
  · intro parent
    exact Block.filter_parent_outlineFrom program parent none 0 0

theorem Describes.ids_perm {items : Outline} {program : Block} (h : Describes items program) :
    (items.map OutlineItem.id).Perm program.ids := by
  have hids := h.statements.map Statement.id
  rwa [List.map_map] at hids

section Positions

variable {items : Outline} (hnodup : (items.map OutlineItem.id).Nodup)

include hnodup

/-- Where identifiers are distinct, they tell positions apart. -/
theorem eq_of_id_eq {i j : Nat} {a b : OutlineItem} (ha : items[i]? = some a)
    (hb : items[j]? = some b) (hid : a.id = b.id) : i = j := by
  have hlt : i < (items.map OutlineItem.id).length := by
    rw [List.length_map]
    exact (List.getElem?_eq_some_iff.mp ha).1
  exact (List.getElem?_inj hlt hnodup).mp (by simp [ha, hb, hid])

theorem lastPosition?_eq_some_iff {id : String} {i : Nat} :
    items.lastPosition? id = some i ↔ ∃ item, items[i]? = some item ∧ item.id = id := by
  unfold lastPosition?
  constructor
  · intro h
    obtain ⟨j, hj, rfl⟩ := Option.map_eq_some_iff.mp h
    obtain ⟨hlt, hid, _⟩ := List.findIdx?_eq_some_iff_getElem.mp hj
    rw [List.getElem_reverse] at hid
    rw [List.length_reverse] at hlt
    have hlt' : items.length - 1 - j < items.length := by omega
    exact ⟨_, List.getElem?_eq_getElem hlt', by simpa using hid⟩
  · rintro ⟨item, hitem, hid⟩
    obtain ⟨hlt, rfl⟩ := List.getElem?_eq_some_iff.mp hitem
    refine Option.map_eq_some_iff.mpr ⟨items.length - 1 - i, ?_, by omega⟩
    refine List.findIdx?_eq_some_iff_getElem.mpr ⟨by rw [List.length_reverse]; omega, ?_, ?_⟩
    · have hi : items.length - 1 - (items.length - 1 - i) = i := by omega
      simp [List.getElem_reverse, hi, hid]
    · intro j hj hid'
      rw [List.getElem_reverse] at hid'
      have hlt' : items.length - 1 - j < items.length := by omega
      have heq := eq_of_id_eq hnodup (List.getElem?_eq_getElem hlt') hitem
        (by rw [hid]; simpa using hid')
      omega

theorem parentPosition?_eq_some_iff {i p : Nat} :
    items.parentPosition? i = some p ↔ p ≠ i ∧
      ∃ item parent, items[i]? = some item ∧ items[p]? = some parent ∧
        item.parent = some parent.id := by
  unfold parentPosition?
  cases hitem : items[i]? with
  | none => simp
  | some item =>
      cases hparent : item.parent with
      | none => simp [hparent]
      | some id =>
          cases hlast : items.lastPosition? id with
          | none =>
              simp only [Option.bind_eq_bind, Option.bind_some, hparent, hlast, Option.bind_none]
              constructor
              · intro h
                cases h
              · rintro ⟨_, _, parent, heq, hp, hid⟩
                cases heq
                rw [hparent] at hid
                cases hid
                have hsome := (lastPosition?_eq_some_iff hnodup).mpr ⟨parent, hp, rfl⟩
                rw [hlast] at hsome
                cases hsome
          | some q =>
              obtain ⟨parent, hq, hid⟩ := (lastPosition?_eq_some_iff hnodup).mp hlast
              simp only [Option.bind_eq_bind, Option.bind_some, hparent, hlast, beq_iff_eq]
              constructor
              · intro h
                split at h
                · cases h
                · next hne =>
                  cases h
                  exact ⟨hne, item, parent, rfl, hq, by rw [hparent, hid]⟩
              · rintro ⟨hne, _, parent', heq, hp, hid'⟩
                cases heq
                rw [hparent] at hid'
                cases hid'
                obtain rfl := eq_of_id_eq hnodup hq hp hid
                rw [if_neg hne]

end Positions

/-- The table of parent positions answers as the list does. -/
theorem parent?_parentPositions (items : Outline) (i : Nat) :
    ParentTable.parent? items.parentPositions i = items.parentPosition? i := by
  rw [ParentTable.parent?, parentPositions, List.getD_eq_getElem?_getD, List.getElem?_map]
  by_cases hlt : i < items.length
  · rw [List.getElem?_range hlt]
    rfl
  · rw [List.getElem?_eq_none (by simpa using hlt)]
    have hnone : items[i]? = none := List.getElem?_eq_none (by omega)
    simp [parentPosition?, hnone]

/-- Positions chosen by what stands on them lead to the items chosen the same way. -/
theorem map_getElem?_filter_range {items : Outline} {f : OutlineItem → Bool} {q : Nat → Bool}
    (h : ∀ i item, items[i]? = some item → q i = f item) :
    ((List.range items.length).filter q).map (fun i => items[i]?) =
      (items.filter f).map some := by
  have hall : (List.range items.length).map (fun i => items[i]?) = items.map some := by
    apply List.ext_getElem (by simp)
    intro i hi _
    simp at hi
    simp [hi]
  have hfilter : (items.filter f).map some = (items.map some).filter fun o => o.any f := by
    rw [List.filter_map]
    rfl
  rw [hfilter, ← hall, List.filter_map]
  congr 1
  apply List.filter_congr
  intro i hi
  have hlt : i < items.length := List.mem_range.mp hi
  rw [h i _ (List.getElem?_eq_getElem hlt)]
  simp [hlt]

end Outline

namespace Block

theorem id_mem_of_mem_under {b : Block} {parent own : Option String} {s : Statement}
    (h : s ∈ b.under parent own) : s.id ∈ b.ids := by
  induction b generalizing own with
  | nil => cases h
  | cons head body next ihbody ihnext =>
      rw [under, List.mem_append, List.mem_append] at h
      rw [ids_cons, List.mem_cons, List.mem_append]
      rcases h with h | h | h
      · split at h
        · exact .inl (by rw [List.mem_singleton.mp h])
        · cases h
      · exact .inr (.inl (ihbody h))
      · exact .inr (.inr (ihnext h))

/-- No statement is under itself. -/
theorem ne_of_mem_under {b : Block} {own : Option String} {id : String} {s : Statement}
    (hnodup : b.ids.Nodup) (hown : ∀ x ∈ b.ids, some x ≠ own) (h : s ∈ b.under (some id) own) :
    s.id ≠ id := by
  induction b generalizing own with
  | nil => cases h
  | cons head body next ihbody ihnext =>
      obtain ⟨hbody, _, hnodup, hnodup', _⟩ := nodup_ids_cons.mp hnodup
      simp only [ids_cons, List.mem_cons, List.mem_append] at hown
      rw [under, List.mem_append, List.mem_append] at h
      rcases h with h | h | h
      · split at h
        · next heq =>
          obtain rfl := List.mem_singleton.mp h
          rintro rfl
          exact hown _ (.inl rfl) heq.symm
        · cases h
      · apply ihbody hnodup _ h
        rintro x hx heq
        cases heq
        exact hbody hx
      · exact ihnext hnodup' (fun x hx => hown x (.inr (.inr hx))) h

end Block

namespace Outline

/-- The list names under each statement of the block, which stands under `own`, what the block
has there, and it names the statements of the block itself under `own`. -/
structure DescribesPart (items : Outline) (b : Block) (own : Option String) : Prop where
  under : ∀ id ∈ b.ids, items.under (some id) = b.under (some id) own
  top : ∀ node ∈ b.nodes, node.head ∈ items.under own

section Parts

variable {items : Outline} {head : Statement} {body next : Block} {own : Option String}
  (hnodup : (Block.cons head body next).ids.Nodup)
  (hown : ∀ id ∈ (Block.cons head body next).ids, some id ≠ own)
  (h : DescribesPart items (.cons head body next) own)

include hnodup hown h

theorem DescribesPart.under_head : items.under (some head.id) = body.nodes.map Node.head := by
  obtain ⟨hbody, hnext, _⟩ := Block.nodup_ids_cons.mp hnodup
  have hhead : head.id ∈ (Block.cons head body next).ids := by simp
  have hbody' := Block.ne_head_of_nodup hnodup
  have hnext' : ∀ id ∈ next.ids, some id ≠ some head.id := by
    rintro id hid heq
    cases heq
    exact hnext hid
  rw [h.under head.id hhead, Block.under, if_neg (hown head.id hhead).symm,
    Block.under_own hbody', Block.under_eq_nil (hown head.id hhead).symm hnext']
  simp

theorem DescribesPart.inner : DescribesPart items body (some head.id) := by
  obtain ⟨hbody, _, _, _, hdisjoint⟩ := Block.nodup_ids_cons.mp hnodup
  constructor
  · intro id hid
    have hid' : id ∈ (Block.cons head body next).ids := by simp [hid]
    rw [h.under id hid', Block.under, if_neg (hown id hid').symm,
      Block.under_eq_nil (b := next) (hown id hid').symm]
    · simp
    · rintro x hx heq
      cases heq
      exact hdisjoint id hid hx
  · intro node hnode
    rw [h.under_head hnodup hown]
    exact List.mem_map_of_mem hnode

theorem DescribesPart.after : DescribesPart items next own := by
  obtain ⟨_, hnext, _, _, hdisjoint⟩ := Block.nodup_ids_cons.mp hnodup
  constructor
  · intro id hid
    have hid' : id ∈ (Block.cons head body next).ids := by simp [hid]
    have hne : some head.id ≠ some id := by
      rintro heq
      cases heq
      exact hnext hid
    rw [h.under id hid', Block.under, if_neg (hown id hid').symm, Block.under_eq_nil hne]
    · simp
    · rintro x hx heq
      cases heq
      exact hdisjoint id hx hid
  · intro node hnode
    exact h.top node (List.mem_cons_of_mem _ hnode)

end Parts

theorem Describes.part {items : Outline} {program : Block} (h : Describes items program) :
    DescribesPart items program none := by
  constructor
  · intro id _
    exact h.under (some id)
  · intro node hnode
    rw [h.under none, Block.under_own (by simp)]
    exact List.mem_map_of_mem hnode

/-- A parent that an item names is a statement of the program other than the item's own, and
stands somewhere in the list. -/
theorem Describes.parentPosition?_isSome {items : Outline} {program : Block}
    (h : Describes items program) (hnodup : program.ids.Nodup) {i : Nat} {item : OutlineItem}
    (hitem : items[i]? = some item) :
    (items.parentPosition? i).isSome = item.parent.isSome := by
  have hnodup' : (items.map OutlineItem.id).Nodup := h.ids_perm.nodup_iff.mpr hnodup
  cases hparent : item.parent with
  | none =>
      rw [Option.isSome_none, Option.isSome_eq_false_iff, Option.isNone_iff_eq_none]
      cases hposition : items.parentPosition? i with
      | none => rfl
      | some p =>
          obtain ⟨_, _, parent, heq, _, hid⟩ :=
            (parentPosition?_eq_some_iff hnodup').mp hposition
          rw [hitem] at heq
          cases heq
          rw [hparent] at hid
          cases hid
  | some id =>
      have hmem : item.statement ∈ program.under (some id) none := by
        rw [← h.under, mem_under]
        exact ⟨item, List.mem_of_getElem? hitem, hparent, rfl⟩
      have hne : item.id ≠ id := Block.ne_of_mem_under hnodup (by simp) hmem
      have hid : id ∈ program.ids := by
        by_cases hid : id ∈ program.ids
        · exact hid
        · rw [Block.under_eq_nil (by simp)] at hmem
          · cases hmem
          · rintro x hx heq
            cases heq
            exact hid hx
      obtain ⟨parent, hparent', hid'⟩ := List.mem_map.mp (h.ids_perm.mem_iff.mpr hid)
      obtain ⟨p, hp⟩ := List.mem_iff_getElem?.mp hparent'
      have hposition : items.parentPosition? i = some p := by
        refine (parentPosition?_eq_some_iff hnodup').mpr ⟨?_, item, parent, hitem, hp, ?_⟩
        · rintro rfl
          rw [hitem] at hp
          cases hp
          exact hne hid'
        · rw [hparent, hid']
      simp [hposition]

/-- The positions under a position are those of the items that name its statement. -/
theorem Describes.map_children {items : Outline} {program : Block} (h : Describes items program)
    (hnodup : program.ids.Nodup) {p : Nat} {parent : OutlineItem} (hp : items[p]? = some parent) :
    (ParentTable.children items.parentPositions [] p).map
        (fun i => items[i]?.map OutlineItem.statement) =
      (items.under (some parent.id)).map some := by
  have hnodup' : (items.map OutlineItem.id).Nodup := h.ids_perm.nodup_iff.mpr hnodup
  have hchildren : (ParentTable.children items.parentPositions [] p).map (fun i => items[i]?) =
      (items.filter fun item => item.parent == some parent.id).map some := by
    rw [ParentTable.children, parentPositions, List.length_map, List.length_range]
    apply map_getElem?_filter_range
    intro i item hitem
    rw [← parentPositions, parent?_parentPositions]
    rw [Bool.eq_iff_iff]
    simp only [List.contains_nil, Bool.not_false, Bool.and_true, beq_iff_eq]
    constructor
    · intro hposition
      obtain ⟨_, _, parent', heq, hp', hid⟩ :=
        (parentPosition?_eq_some_iff hnodup').mp hposition
      rw [hitem] at heq
      cases heq
      rw [hp] at hp'
      cases hp'
      exact hid
    · intro hid
      refine (parentPosition?_eq_some_iff hnodup').mpr ⟨?_, item, parent, hitem, hp, hid⟩
      rintro rfl
      rw [hitem] at hp
      cases hp
      have hmem : parent.statement ∈ program.under (some parent.id) none := by
        rw [← h.under, mem_under]
        exact ⟨parent, List.mem_of_getElem? hitem, hid, rfl⟩
      exact Block.ne_of_mem_under hnodup (by simp) hmem rfl
  have hmap := congrArg (List.map (Option.map OutlineItem.statement)) hchildren
  simpa [Outline.under, Function.comp_def] using hmap

/-- The positions without a parent in the list are those of the items that name none. -/
theorem Describes.map_roots {items : Outline} {program : Block} (h : Describes items program)
    (hnodup : program.ids.Nodup) :
    (ParentTable.roots items.parentPositions).map (fun i => items[i]?) =
      (items.filter fun item => item.parent == none).map some := by
  rw [ParentTable.roots, parentPositions, List.length_map, List.length_range]
  apply map_getElem?_filter_range
  intro i item hitem
  rw [← parentPositions, parent?_parentPositions, ← Option.not_isSome,
    h.parentPosition?_isSome hnodup hitem]
  cases item.parent <;> rfl

/-- Going further from parent to parent loses no root. -/
theorem reachesRoot_succ {table : ParentTable} {cut : List Nat} {n i : Nat}
    (h : table.reachesRoot cut n i = true) : table.reachesRoot cut (n + 1) i = true := by
  induction n generalizing i with
  | zero =>
      rw [ParentTable.reachesRoot, Bool.or_eq_true] at h
      rw [ParentTable.reachesRoot, Bool.or_eq_true]
      rcases h with h | h
      · exact .inl h
      · rw [Option.isNone_iff_eq_none] at h
        exact .inr (by rw [h])
  | succ n ih =>
      rw [ParentTable.reachesRoot, Bool.or_eq_true] at h
      rw [ParentTable.reachesRoot, Bool.or_eq_true]
      rcases h with h | h
      · exact .inl h
      · refine .inr ?_
        split at h
        · rfl
        · exact ih h

theorem reachesRoot_of_le {table : ParentTable} {cut : List Nat} {m n i : Nat}
    (h : table.reachesRoot cut m i = true) (hle : m ≤ n) : table.reachesRoot cut n i = true := by
  induction hle with
  | refl => exact h
  | step _ ih => exact reachesRoot_succ ih

section Reach

variable {items : Outline} {program : Block} (hprogram : Describes items program)
  (hnodup : program.ids.Nodup)

include hprogram hnodup

/-- The item of a statement of the block itself names the block's own parent. -/
theorem DescribesPart.parent_eq {b : Block} {own : Option String} (h : DescribesPart items b own)
    {node : Node} (hnode : node ∈ b.nodes) {i : Nat} {item : OutlineItem}
    (hitem : items[i]? = some item) (hid : item.id = node.head.id) : item.parent = own := by
  have hnodup' : (items.map OutlineItem.id).Nodup := hprogram.ids_perm.nodup_iff.mpr hnodup
  obtain ⟨other, hother, hparent, hstatement⟩ := mem_under.mp (h.top node hnode)
  obtain ⟨j, hj⟩ := List.mem_iff_getElem?.mp hother
  have hid' : item.id = other.id := by rw [hid, OutlineItem.id, hstatement]
  obtain rfl := eq_of_id_eq hnodup' hitem hj hid'
  rw [hitem] at hj
  cases hj
  exact hparent

/-- From each statement of a part a root is reached, if one is reached from what stands beside
the part: each level costs one more step. -/
theorem DescribesPart.reachesRoot {b : Block} {own : Option String} {m : Nat}
    (h : DescribesPart items b own) (hpart : b.ids.Nodup)
    (hown : ∀ id ∈ b.ids, some id ≠ own)
    (hm : ∀ i item, items[i]? = some item → item.parent = own →
      ParentTable.reachesRoot items.parentPositions [] m i = true) :
    ∀ i item, items[i]? = some item → item.id ∈ b.ids →
      ParentTable.reachesRoot items.parentPositions [] (m + b.size) i = true := by
  have hnodup' : (items.map OutlineItem.id).Nodup := hprogram.ids_perm.nodup_iff.mpr hnodup
  induction b generalizing own m with
  | nil =>
      intro i item _ hid
      cases hid
  | cons head body next ihbody ihnext =>
      have hhead : ∀ i item, items[i]? = some item → item.id = head.id →
          ParentTable.reachesRoot items.parentPositions [] m i = true := by
        intro i item hitem hid
        have hnode : ⟨head, body⟩ ∈ (Block.cons head body next).nodes := .head _
        exact hm i item hitem (h.parent_eq hprogram hnodup hnode hitem hid)
      obtain ⟨hbody, _, hnodupBody, hnodupNext, _⟩ := Block.nodup_ids_cons.mp hpart
      intro i item hitem hid
      rw [Block.ids_cons, List.mem_cons, List.mem_append] at hid
      rw [Block.size]
      rcases hid with hid | hid | hid
      · exact reachesRoot_of_le (hhead i item hitem hid) (by omega)
      · have hstep : ∀ i item, items[i]? = some item → item.parent = some head.id →
            ParentTable.reachesRoot items.parentPositions [] (m + 1) i = true := by
          intro i item hitem hparent
          have hsome := hprogram.parentPosition?_isSome hnodup hitem
          rw [hparent, Option.isSome_some, Option.isSome_iff_exists] at hsome
          obtain ⟨p, hp⟩ := hsome
          obtain ⟨_, _, parent, heq, hparent', hid⟩ :=
            (parentPosition?_eq_some_iff hnodup').mp hp
          rw [hitem] at heq
          cases heq
          rw [hparent, Option.some.injEq] at hid
          rw [ParentTable.reachesRoot, parent?_parentPositions, hp]
          dsimp only
          rw [hhead p parent hparent' hid.symm, Bool.or_true]
        have hne := Block.ne_head_of_nodup hpart
        have hreach := ihbody (h.inner hpart hown) hnodupBody hne hstep i item hitem hid
        exact reachesRoot_of_le hreach (by omega)
      · have hne := Block.ne_own_of_cons hown
        have hreach := ihnext (h.after hpart hown) hnodupNext hne hm i item hitem hid
        exact reachesRoot_of_le hreach (by omega)

/-- The positions of the statements of a part assemble to the part. -/
theorem DescribesPart.assemble {b : Block} {own : Option String} {fuel : Nat}
    {positions : List Nat} (h : DescribesPart items b own) (hpart : b.ids.Nodup)
    (hown : ∀ id ∈ b.ids, some id ≠ own) (hfuel : b.size ≤ fuel)
    (hpositions : positions.map (fun i => items[i]?.map OutlineItem.statement) =
      (b.nodes.map Node.head).map some) :
    items.assemble items.parentPositions [] fuel positions = b := by
  induction b generalizing own fuel positions with
  | nil =>
      obtain rfl : positions = [] := by simpa [Block.nodes] using hpositions
      cases fuel <;> rfl
  | cons head body next ihbody ihnext =>
      obtain ⟨hbody, _, hnodupBody, hnodupNext, _⟩ := Block.nodup_ids_cons.mp hpart
      rw [Block.size] at hfuel
      obtain ⟨fuel, rfl⟩ : ∃ n, fuel = n + 1 := ⟨fuel - 1, by omega⟩
      cases positions with
      | nil => cases hpositions
      | cons i positions =>
          simp only [Block.nodes, List.map_cons, List.cons.injEq] at hpositions
          obtain ⟨hhead, hnext⟩ := hpositions
          obtain ⟨item, hitem, hstatement⟩ := Option.map_eq_some_iff.mp hhead
          have hid : item.id = head.id := by rw [OutlineItem.id, hstatement]
          have hchildren := hprogram.map_children hnodup hitem
          rw [hid, h.under_head hpart hown] at hchildren
          have hne := Block.ne_head_of_nodup hpart
          have hbody' : items.assemble items.parentPositions [] fuel
              (ParentTable.children items.parentPositions [] i) = body :=
            ihbody (h.inner hpart hown) hnodupBody hne (by omega) hchildren
          have hnext' : items.assemble items.parentPositions [] (fuel + 1) positions = next :=
            ihnext (h.after hpart hown) hnodupNext (Block.ne_own_of_cons hown)
              (by omega) hnext
          rw [Outline.assemble] at hnext' ⊢
          rw [List.foldr_cons, hnext', hitem]
          dsimp only
          rw [hstatement, hbody']

end Reach

theorem length_of_describes {items : Outline} {program : Block} (h : Describes items program) :
    items.length = program.size := by
  have hlength := h.statements.length_eq
  rw [List.length_map] at hlength
  rw [hlength]
  clear h hlength
  induction program with
  | nil => rfl
  | cons head body next ihbody ihnext =>
      simp only [Block.statements, Block.size, List.length_cons, List.length_append]
      omega

/-- A list that describes a program with distinct identifiers is rebuilt to that program, and
none of its items is out of reach. -/
theorem Describes.rebuild_eq {items : Outline} {program : Block} (h : Describes items program)
    (hnodup : program.ids.Nodup) : items.rebuild = ⟨program, []⟩ := by
  have hcuts : ParentTable.cuts items.parentPositions = [] := by
    have hreach : ∀ i < items.length,
        ParentTable.reachesRoot items.parentPositions [] items.length i = true := by
      intro i hi
      have hitem := List.getElem?_eq_getElem hi
      have hroot : ∀ i item, items[i]? = some item → item.parent = none →
          ParentTable.reachesRoot items.parentPositions [] 0 i = true := by
        intro i item hitem hparent
        have hnone := h.parentPosition?_isSome hnodup hitem
        rw [hparent, Option.isSome_none, Option.isSome_eq_false_iff] at hnone
        rw [ParentTable.reachesRoot, parent?_parentPositions, hnone, Bool.or_true]
      have hid : items[i].id ∈ program.ids :=
        h.ids_perm.mem_iff.mp (List.mem_map_of_mem (List.getElem_mem hi))
      have hfound := h.part.reachesRoot h hnodup hnodup (by simp) hroot i _ hitem hid
      rwa [Nat.zero_add, ← length_of_describes h] at hfound
    have hfold : ∀ positions : List Nat, (∀ i ∈ positions, i < items.length) →
        positions.foldl (fun cut i =>
          if ParentTable.reachesRoot items.parentPositions cut items.length i then cut
          else cut ++ [i]) [] = [] := by
      intro positions hpositions
      induction positions with
      | nil => rfl
      | cons i positions ih =>
          rw [List.foldl_cons, if_pos (hreach i (hpositions i (.head _)))]
          exact ih fun j hj => hpositions j (.tail _ hj)
    have hlength : items.parentPositions.length = items.length := by simp [parentPositions]
    rw [ParentTable.cuts, hlength]
    exact hfold _ fun i hi => List.mem_range.mp hi
  have hroots := h.map_roots hnodup
  have hstrays : ((ParentTable.roots items.parentPositions).filter fun i =>
      (items[i]?.bind OutlineItem.parent).isSome) = [] := by
    rw [List.filter_eq_nil_iff]
    intro i hi hsome
    have hmem := List.mem_map_of_mem (f := fun i => items[i]?) hi
    rw [hroots] at hmem
    obtain ⟨item, hitem, heq⟩ := List.mem_map.mp hmem
    have hparent := (List.mem_filter.mp hitem).2
    rw [← heq, Option.bind_some, eq_of_beq hparent] at hsome
    cases hsome
  have htop := congrArg (List.map (Option.map OutlineItem.statement)) hroots
  have hunder : items.under none = program.nodes.map Node.head := by
    rw [h.under none, Block.under_own (by simp)]
  have hpositions : (ParentTable.roots items.parentPositions).map
      (fun i => items[i]?.map OutlineItem.statement) = (program.nodes.map Node.head).map some := by
    rw [← hunder]
    simpa [Outline.under, Function.comp_def] using htop
  have hassemble := h.part.assemble h hnodup hnodup (by simp)
    (Nat.le_of_eq (length_of_describes h).symm) hpositions
  unfold rebuild
  dsimp only
  rw [hcuts, List.append_nil, hassemble, hstrays]
  rfl

end Outline

/-- Rebuilding undoes taking the outline, as long as identifiers are distinct. -/
theorem Block.rebuild_outline {program : Block} (hnodup : program.ids.Nodup) :
    program.outline.rebuild = ⟨program, []⟩ :=
  (Outline.describes_outline program).rebuild_eq hnodup

end BlockCode
