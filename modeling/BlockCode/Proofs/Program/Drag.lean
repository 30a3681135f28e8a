/- # A drag commits what it showed

The projection of a drag is computed on the visible part of the outline, and the drop rebuilds
the program from the whole outline in its new order. Both are traced to the same grafting of the
dragged statement onto what is left of the program: the whole outline describes the graft onto
the whole rest, and the visible outline in its new order is that of the graft onto the pruned
rest.
-/

import Mathlib.Data.List.Perm.Basic
import BlockCode.Proofs.Program.Preorder
import BlockCode.Proofs.Program.Visible

namespace BlockCode

namespace Outline

theorem insertIdx_eq {α : Type} {l : List α} {i : Nat} (x : α) (h : i ≤ l.length) :
    l.insertIdx i x = l.take i ++ x :: l.drop i := by
  induction l generalizing i with
  | nil =>
      obtain rfl : i = 0 := by simpa using h
      rfl
  | cons y l ih =>
      cases i with
      | zero => rfl
      | succ i =>
          rw [List.insertIdx_succ_cons, ih (by simpa using h)]
          rfl

/-- The items that stand before the place of `onto` once `active` was taken out. A statement
that moves down comes to stand behind `onto`, and otherwise in front of it. -/
def front (active onto : String) (items : Outline) : Outline :=
  let before := items.takeWhile fun item => item.id != onto
  (before.filter fun item => item.id != active) ++
    if before.any fun item => item.id == active then items.filter fun item => item.id == onto
    else []

section Distinct

variable {items : Outline} {active onto : String} {source target : Nat}

theorem take_succ_of_position? (honto : items.position? onto = some target)
    (hnodup : (items.map OutlineItem.id).Nodup) :
    items.take (target + 1) = (items.takeWhile fun item => item.id != onto) ++
      items.filter fun item => item.id == onto := by
  induction items generalizing target with
  | nil => cases honto
  | cons item items ih =>
      rw [List.map_cons, List.nodup_cons] at hnodup
      rw [position?_cons] at honto
      split at honto
      · next hid =>
        cases honto
        have hout : (items.filter fun other => other.id == onto) = [] := by
          rw [List.filter_eq_nil_iff]
          intro other hother heq
          rw [← hid, beq_iff_eq] at heq
          exact hnodup.1 (heq ▸ List.mem_map_of_mem hother)
        rw [List.takeWhile_cons_of_neg (by simpa using hid), List.filter_cons_of_pos
          (by simpa using hid), hout]
        rfl
      · next hid =>
        obtain ⟨target, htarget, rfl⟩ := Option.map_eq_some_iff.mp honto
        rw [List.takeWhile_cons_of_pos (by simpa using hid), List.filter_cons_of_neg
          (by simpa using hid), List.take_succ_cons, ih htarget hnodup.2]
        rfl

theorem eraseIdx_of_position? (hactive : items.position? active = some source)
    (hnodup : (items.map OutlineItem.id).Nodup) :
    items.eraseIdx source = items.filter fun item => item.id != active := by
  induction items generalizing source with
  | nil => cases hactive
  | cons item items ih =>
      rw [List.map_cons, List.nodup_cons] at hnodup
      rw [position?_cons] at hactive
      split at hactive
      · next hid =>
        cases hactive
        have hall : (items.filter fun other => other.id != active) = items := by
          rw [List.filter_eq_self]
          intro other hother
          rw [bne_iff_ne, ← hid]
          rintro heq
          exact hnodup.1 (heq ▸ List.mem_map_of_mem hother)
        rw [List.filter_cons_of_neg (by simpa using hid), hall]
        rfl
      · next hid =>
        obtain ⟨source, hsource, rfl⟩ := Option.map_eq_some_iff.mp hactive
        rw [List.filter_cons_of_pos (by simpa using hid), List.eraseIdx_cons_succ,
          ih hsource hnodup.2]

theorem take_eraseIdx_of_position? (hactive : items.position? active = some source)
    (honto : items.position? onto = some target) (hnodup : (items.map OutlineItem.id).Nodup) :
    (items.eraseIdx source).take target = items.front active onto := by
  induction items generalizing source target with
  | nil => cases hactive
  | cons item items ih =>
      have hnodup' := hnodup
      rw [List.map_cons, List.nodup_cons] at hnodup
      rw [position?_cons] at hactive honto
      split at honto
      · next hid =>
        cases honto
        rw [front, List.takeWhile_cons_of_neg (by simpa using hid)]
        rfl
      · next hid =>
        obtain ⟨target, htarget, rfl⟩ := Option.map_eq_some_iff.mp honto
        rw [front, List.takeWhile_cons_of_pos (by simpa using hid)]
        split at hactive
        · next hid' =>
          cases hactive
          have hall : ((items.takeWhile fun other => other.id != onto).filter
              fun other => other.id != active) = items.takeWhile fun other => other.id != onto := by
            rw [List.filter_eq_self]
            intro other hother
            rw [bne_iff_ne, ← hid']
            rintro heq
            exact hnodup.1 (heq ▸ List.mem_map_of_mem
              ((List.takeWhile_sublist _).subset hother))
          rw [List.filter_cons_of_neg (by simpa using hid'), hall, if_pos (by simp [hid']),
            List.filter_cons_of_neg (by simpa using hid), ← take_succ_of_position? htarget hnodup.2]
          rfl
        · next hid' =>
          obtain ⟨source, hsource, rfl⟩ := Option.map_eq_some_iff.mp hactive
          have hne : (item.id == active) = false := by simpa using hid'
          rw [List.filter_cons_of_pos (by simpa using hid'), List.any_cons, hne, Bool.false_or,
            List.filter_cons_of_neg (by simpa using hid), List.eraseIdx_cons_succ,
            List.take_succ_cons, ih hsource htarget hnodup.2]
          rfl

end Distinct

theorem under_append (items items' : Outline) (parent : Option String) :
    under (items ++ items') parent = items.under parent ++ items'.under parent := by
  rw [under, List.filter_append, List.map_append]
  rfl

theorem under_cons (item : OutlineItem) (items : Outline) (parent : Option String) :
    under (item :: items) parent =
      (if item.parent = parent then [item.statement] else []) ++ items.under parent := by
  rw [under, List.filter_cons]
  by_cases heq : item.parent = parent
  · simp [heq, under]
  · simp [heq, under]

theorem countP_parent (items : Outline) (parent : Option String) :
    items.countP (fun item => item.parent == parent) = (items.under parent).length := by
  rw [under, List.length_map, List.countP_eq_length_filter]

/-- What stands in front stands there also when only some items are looked at, as long as both
statements of the drag are among them. -/
theorem front_filter {items : Outline} {active onto : String} {f : OutlineItem → Bool}
    (hactive : ∀ item ∈ items, item.id = active → f item = true)
    (honto : ∀ item ∈ items, item.id = onto → f item = true) :
    front active onto (items.filter f) = (items.front active onto).filter f := by
  have hbefore : (items.filter f).takeWhile (fun item => item.id != onto) =
      (items.takeWhile fun item => item.id != onto).filter f := by
    clear hactive
    induction items with
    | nil => rfl
    | cons item items ih =>
        have ih' := ih fun other hother => honto other (.tail _ hother)
        by_cases hid : item.id = onto
        · have hf := honto item (.head _) hid
          rw [List.filter_cons_of_pos hf, List.takeWhile_cons_of_neg (by simpa using hid),
            List.takeWhile_cons_of_neg (by simpa using hid)]
          rfl
        · rw [List.takeWhile_cons_of_pos (l := items) (by simpa using hid)]
          by_cases hf : f item = true
          · rw [List.filter_cons_of_pos hf, List.filter_cons_of_pos hf,
              List.takeWhile_cons_of_pos (by simpa using hid), ih']
          · rw [List.filter_cons_of_neg hf, List.filter_cons_of_neg hf, ih']
  have hany : ((items.takeWhile fun item => item.id != onto).filter f).any
      (fun item => item.id == active) =
        (items.takeWhile fun item => item.id != onto).any fun item => item.id == active := by
    rw [Bool.eq_iff_iff, List.any_eq_true, List.any_eq_true]
    constructor
    · rintro ⟨item, hitem, hid⟩
      exact ⟨item, (List.mem_filter.mp hitem).1, hid⟩
    · rintro ⟨item, hitem, hid⟩
      have hmem := (List.takeWhile_sublist _).subset hitem
      exact ⟨item, List.mem_filter.mpr ⟨hitem, hactive item hmem (eq_of_beq hid)⟩, hid⟩
  rw [front, front, hbefore, hany, List.filter_append, List.filter_comm]
  split
  · congr 1
    rw [List.filter_comm]
  · rfl

end Outline

section Drop

variable {program : Block} {active : String} {node : Node}
  (hnodup : program.ids.Nodup) (hfind : program.find? active = some node)

include hnodup hfind

namespace Block

/-- Nothing of the statement is left to be a parent. -/
theorem not_hasParent_without {id : String} (h : id ∈ node.ids) :
    ¬ (program.without active).HasParent none (some id) := by
  obtain ⟨_, _, _, hdisjoint⟩ := ids_disjoint_of_find? hnodup hfind
  rintro (heq | ⟨other, hother, heq⟩)
  · cases heq
  · cases heq
    exact hdisjoint id h hother

/-- Without the statement, each parent that is not nested under it keeps its other statements. -/
theorem filter_under_eq_without {parent : Option String}
    (h : ∀ id ∈ node.ids, some id ≠ parent) :
    ((program.under parent none).filter fun s => s.id != active) =
      (program.without active).under parent none := by
  obtain ⟨hid, _, hrest, hdisjoint⟩ := ids_disjoint_of_find? hnodup hfind
  obtain ⟨old, index, hold, hgraft⟩ := exists_eq_graft hnodup program.ne_none hfind
  have hout : active ∉ (program.without active).ids := by
    apply hdisjoint
    rw [node_ids, hid]
    exact .head _
  have hkeep (l : List Statement) (hl : l.Sublist ((program.without active).under parent none)) :
      (l.filter fun s => s.id != active) = l := by
    rw [List.filter_eq_self]
    intro s hs
    rw [bne_iff_ne]
    rintro rfl
    exact hout (id_mem_of_mem_under (hl.subset hs))
  by_cases heq : parent = old
  · subst heq
    have hunder := under_graft_parent index hrest (ne_none _) hold h
    rw [← hgraft] at hunder
    rw [hunder, List.filter_append, List.filter_cons_of_neg (by simp [hid]),
      hkeep _ (List.take_sublist _ _), hkeep _ (List.drop_sublist _ _), List.take_append_drop]
  · have hunder : ((program.without active).graft old none node index).under parent none =
        (program.without active).under parent none := under_graft_of_not_mem index heq h
    rw [← hgraft] at hunder
    rw [hunder, hkeep _ (.refl _)]

/-- The parents nested under the statement keep theirs. -/
theorem filter_under_eq_body {id : String} (h : id ∈ node.ids) :
    ((program.under (some id) none).filter fun s => s.id != active) =
      node.body.under (some id) (some node.head.id) := by
  obtain ⟨hid, hnode, hrest, _⟩ := ids_disjoint_of_find? hnodup hfind
  obtain ⟨old, index, hold, hgraft⟩ := exists_eq_graft hnodup program.ne_none hfind
  have hout := not_hasParent_without hnodup hfind h
  have hunder := under_graft_of_mem node index hrest (ne_none _) hold hout
  rw [← hgraft] at hunder
  rw [hunder, List.filter_eq_self]
  intro s hs
  rw [bne_iff_ne]
  rintro rfl
  have hmem := id_mem_of_mem_under hs
  rw [node_ids, List.nodup_cons, hid] at hnode
  exact hnode.1 hmem

/-- What is left of the statements when one is taken out. -/
theorem filter_statements_perm : (program.statements.filter fun s => s.id != active).Perm
    (node.body.statements ++ (program.without active).statements) := by
  obtain ⟨hid, hnode, hrest, hdisjoint⟩ := ids_disjoint_of_find? hnodup hfind
  have hperm := (statements_perm_without hnodup hfind).filter fun s => s.id != active
  refine hperm.trans (.of_eq ?_)
  rw [Node.toBlock, statements, statements, List.append_nil, List.cons_append,
    List.filter_cons_of_neg (by simp [hid]), List.filter_eq_self]
  intro s hs
  rw [bne_iff_ne]
  rintro rfl
  rw [node_ids, hid] at hnode hdisjoint
  rcases List.mem_append.mp hs with hs | hs
  · exact (List.nodup_cons.mp hnode).1 (List.mem_map_of_mem hs)
  · exact hdisjoint _ (.head _) (List.mem_map_of_mem hs)

end Block

/-- The outline without the statement has what is left of the statements. -/
theorem map_statement_eraseIdx {source : Nat}
    (hsource : program.outline.position? active = some source) :
    ((program.outline.eraseIdx source).map OutlineItem.statement).Perm
      (node.body.statements ++ (program.without active).statements) := by
  refine .trans (.of_eq ?_) (Block.filter_statements_perm hnodup hfind)
  rw [Outline.eraseIdx_of_position? hsource (Block.nodup_outline hnodup),
    ← Block.map_statement_outline program, List.filter_map]
  rfl

omit hfind in
theorem under_eraseIdx {source : Nat} (parent : Option String)
    (hsource : program.outline.position? active = some source) :
    Outline.under (program.outline.eraseIdx source) parent =
      (program.under parent none).filter fun s => s.id != active := by
  rw [Outline.eraseIdx_of_position? hsource (Block.nodup_outline hnodup), Outline.under,
    ← Block.filter_parent_outlineFrom program parent none 0 0, List.filter_map, List.filter_comm]
  rfl

/-- The outline with the statement taken out and put in again describes the program with its
node grafted on, in front of as many statements of the new parent as stand before the place. -/
theorem describes_reordered {parent : Option String} {source : Nat} (target : Nat)
    (item : OutlineItem) (hparent : (program.without active).HasParent none parent)
    (hsource : program.outline.position? active = some source)
    (hstatement : item.statement = node.head) (hitem : item.parent = parent) :
    Outline.Describes
      ((program.outline.eraseIdx source).take target
        ++ item :: (program.outline.eraseIdx source).drop target)
      ((program.without active).graft parent none node
        (((program.outline.eraseIdx source).take target).countP fun item =>
          item.parent == parent)) := by
  obtain ⟨_, _, hrest, _⟩ := Block.ids_disjoint_of_find? hnodup hfind
  have hstatements := map_statement_eraseIdx hnodup hfind hsource
  have hunder := fun other => under_eraseIdx hnodup other hsource
  generalize program.outline.eraseIdx source = items at *
  constructor
  · rw [List.map_append, List.map_cons, hstatement]
    refine List.perm_middle.trans ?_
    rw [← List.map_append, List.take_append_drop]
    refine (hstatements.cons node.head).trans ?_
    refine .trans (.of_eq ?_) (Block.statements_graft node _ hrest (Block.ne_none _) hparent).symm
    rw [Node.toBlock, Block.statements, Block.statements, List.append_nil, List.cons_append]
  · intro other
    have hjoin : Outline.under (items.take target) other
        ++ Outline.under (items.drop target) other = Outline.under items other := by
      rw [← Outline.under_append, List.take_append_drop]
    rw [Outline.under_append, Outline.under_cons, hitem]
    by_cases heq : parent = other
    · subst heq
      have hnode : ∀ id ∈ node.ids, some id ≠ parent := by
        rintro id hid rfl
        exact Block.not_hasParent_without hnodup hfind hid hparent
      rw [if_pos rfl, Block.under_graft_parent _ hrest (Block.ne_none _) hparent hnode,
        ← Block.filter_under_eq_without hnodup hfind hnode, ← hunder, ← hjoin,
        Outline.countP_parent, hstatement, List.take_left, List.drop_left]
      rfl
    · rw [if_neg heq, List.nil_append, hjoin, hunder]
      by_cases hnode : ∀ id ∈ node.ids, some id ≠ other
      · rw [Block.under_graft_of_not_mem _ (Ne.symm heq) hnode,
          Block.filter_under_eq_without hnodup hfind hnode]
      · obtain ⟨id, hid, rfl⟩ : ∃ id, id ∈ node.ids ∧ some id = other := by
          simpa using hnode
        have hout := Block.not_hasParent_without hnodup hfind hid
        rw [Block.filter_under_eq_body hnodup hfind hid,
          Block.under_graft_of_mem node _ hrest (Block.ne_none _) hparent hout]

end Drop

/-! ## Reading a projection -/

namespace Outline

theorem lt_length_of_position? {items : Outline} {id : String} {i : Nat}
    (h : items.position? id = some i) : i < items.length := by
  obtain ⟨hlt, _⟩ := List.findIdx?_eq_some_iff_getElem.mp h
  exact hlt

theorem id_of_position? {items : Outline} {id : String} {i : Nat} {item : OutlineItem}
    (h : items.position? id = some i) (hitem : items[i]? = some item) : item.id = id := by
  obtain ⟨hlt, hid, _⟩ := List.findIdx?_eq_some_iff_getElem.mp h
  rw [List.getElem?_eq_getElem hlt, Option.some.injEq] at hitem
  rw [← hitem]
  exact eq_of_beq hid

theorem reorder_eq {items : Outline} {source target : Nat} {item : OutlineItem}
    (hitem : items[source]? = some item) (htarget : target < items.length) :
    items.reorder source target =
      (items.eraseIdx source).take target ++ item :: (items.eraseIdx source).drop target := by
  obtain ⟨hlt, _⟩ := List.getElem?_eq_some_iff.mp hitem
  rw [reorder, hitem]
  dsimp only
  rw [insertIdx_eq]
  rw [List.length_eraseIdx_of_lt hlt]
  omega

/-- A projection says where the statement lands: between the items before and behind its place,
at most one level below the item before it, not above the item behind it, and under the parent
that the items before it give at the depth. -/
theorem projectUnits_eq_ok {items : Outline} {active onto : String} {units : Int}
    {projection : Projection} (h : items.projectUnits active onto units = .ok projection) :
    ∃ source target, items.position? active = some source ∧ items.position? onto = some target ∧
      projection.depth ≤
        ((((items.eraseIdx source).take target).getLast?.map fun item => item.depth + 1).getD 0) ∧
      (∀ next ∈ ((items.eraseIdx source).drop target).head?,
        min next.depth
          ((((items.eraseIdx source).take target).getLast?.map fun item => item.depth + 1).getD 0)
            ≤ projection.depth) ∧
      projection.parent =
        parentAtDepth ((items.eraseIdx source).take target).reverse projection.depth := by
  unfold projectUnits at h
  cases hsource : items.position? active with
  | none =>
      rw [hsource] at h
      cases h
  | some source =>
      cases htarget : items.position? onto with
      | none =>
          rw [hsource, htarget] at h
          cases h
      | some target =>
          refine ⟨source, target, rfl, rfl, ?_⟩
          have hitem := List.getElem?_eq_getElem (lt_length_of_position? hsource)
          have hlt := lt_length_of_position? htarget
          have hlength : target ≤ (items.eraseIdx source).length := by
            rw [List.length_eraseIdx_of_lt (lt_length_of_position? hsource)]
            omega
          have htake : (items.reorder source target).take target =
              (items.eraseIdx source).take target := by
            rw [reorder_eq hitem hlt, List.take_append_of_le_length (by simp [hlength]),
              List.take_take, Nat.min_self]
          have hnext : (items.reorder source target)[target + 1]? =
              ((items.eraseIdx source).drop target).head? := by
            rw [reorder_eq hitem hlt, List.getElem?_append_right (by
              rw [List.length_take]
              omega)]
            simp [hlength, List.head?_eq_getElem?]
          rw [hsource, htarget] at h
          simp only [htake, hnext, List.head?_reverse] at h
          split at h
          · cases h
          · next desired _ =>
            cases h
            dsimp only
            refine ⟨?_, ?_, rfl⟩
            · omega
            · intro next hmem
              rw [Option.mem_def.mp hmem]
              simp only [Option.map_some, Option.getD_some]
              omega

end Outline

theorem mem_ids_of_position? {b : Block} {id : String} {i : Nat}
    (h : b.outline.position? id = some i) : id ∈ b.ids := by
  rw [← Block.map_id_outline b]
  exact Outline.position?_isSome.mp (by rw [h]; rfl)

/-- The entries of the visible rest before and behind the place at which a statement with the
depth and the parent of a projection belongs there. -/
structure Lands (rest : Block) (projection : Projection) (before behind : Outline) : Prop where
  entries : before ++ behind = rest.entriesFrom none 0
  behind_le : ∀ item ∈ behind.head?, item.depth ≤ projection.depth
  spot : (projection.depth = 0 ∧ projection.parent = none) ∨
    ∃ last above, before.getLast? = some last ∧ 0 < projection.depth ∧
      projection.depth ≤ last.depth + 1 ∧
      before.reverse.find? (OutlineItem.isAbove projection.depth) = some above ∧
      projection.parent = some above.id

namespace Lands

variable {rest : Block} {projection : Projection} {before behind : Outline}
  (h : Lands rest projection before behind)

include h

/-- The parent is a statement one level higher, or there is none and the depth is zero. -/
theorem parent_spec : (none = projection.parent ∧ projection.depth = 0) ∨
    ∃ item ∈ rest.entriesFrom none 0, some item.id = projection.parent ∧
      projection.depth = item.depth + 1 := by
  rcases h.spot with ⟨hdepth, hparent⟩ | ⟨last, above, _, _, _, habove, hparent⟩
  · exact .inl ⟨hparent.symm, hdepth⟩
  · refine .inr ⟨above, ?_, hparent.symm, ?_⟩
    · rw [← h.entries]
      exact List.mem_append_left _ (List.mem_reverse.mp (List.mem_of_find?_eq_some habove))
    · have hdepth := List.find?_some habove
      rw [OutlineItem.isAbove, beq_iff_eq] at hdepth
      exact hdepth.symm

theorem hasParent : rest.HasParent none projection.parent := by
  rcases h.parent_spec with ⟨heq, _⟩ | ⟨item, hitem, hid, _⟩
  · exact .inl heq
  · exact .inr ⟨item.id, Block.id_mem_of_mem_entriesFrom _ _ _ hitem, hid⟩

/-- Grafted on in front of as many statements of its parent as come before the place, the
statement stands at the place. -/
theorem entriesFrom_graft (s : Statement) (hnodup : rest.ids.Nodup) :
    (rest.graft projection.parent none ⟨s, .nil⟩
        (before.countP fun item => item.parent == projection.parent)).entriesFrom none 0 =
      before ++ ⟨s, projection.parent, projection.depth, 0⟩ :: behind := by
  rcases h.spot with ⟨hdepth, hparent⟩ | ⟨last, above, hlast, hpos, hle, habove, hparent⟩
  · have hbehind := h.behind_le
    rw [hdepth] at hbehind
    rw [hparent, hdepth, Block.graft_own,
      Block.entriesFrom_insertAt h.entries rest.ne_none hnodup hbehind]
  · rw [hparent]
    exact Block.entriesFrom_graft h.entries rest.ne_none hnodup hlast hpos hle h.behind_le habove

end Lands

/-- A place with a depth between the bounds of its neighbours, and with the parent that the
entries before it give at the depth, is one to land at. -/
theorem lands_of_bounds {rest : Block} {projection : Projection} {before behind : Outline}
    (hentries : before ++ behind = rest.entriesFrom none 0)
    (hmax : projection.depth ≤ (before.getLast?.map fun item => item.depth + 1).getD 0)
    (hmin : ∀ next ∈ behind.head?,
      min next.depth ((before.getLast?.map fun item => item.depth + 1).getD 0) ≤ projection.depth)
    (hparent : projection.parent = parentAtDepth before.reverse projection.depth) :
    Lands rest projection before behind := by
  refine ⟨hentries, ?_, ?_⟩
  · -- The entry behind the place is at most one level below the entry before it.
    intro next hnext
    have hle := hmin next hnext
    cases hlast : before.getLast? with
    | none =>
        rw [List.getLast?_eq_none_iff] at hlast
        rw [hlast, List.nil_append] at hentries
        rw [Block.depth_of_head?_entriesFrom _ _ (hentries ▸ hnext)]
        exact Nat.zero_le _
    | some last =>
        have hchain := Block.isChain_entriesFrom rest none 0
        rw [← hentries, List.isChain_append] at hchain
        have hstep := hchain.2.2 last hlast next hnext
        rw [hlast, Option.map_some, Option.getD_some, Nat.min_eq_left hstep] at hle
        exact hle
  · by_cases hdepth : projection.depth = 0
    · refine .inl ⟨hdepth, ?_⟩
      rw [hparent, hdepth]
      cases before.reverse <;> rfl
    · cases hlast : before.getLast? with
      | none =>
          rw [hlast] at hmax
          exact absurd (Nat.le_zero.mp hmax) hdepth
      | some last =>
          rw [hlast] at hmax
          have hpos := Nat.pos_of_ne_zero hdepth
          obtain ⟨above, habove⟩ := Block.exists_isAbove hentries hlast hpos hmax
          refine .inr ⟨last, above, rfl, hpos, hmax, habove, ?_⟩
          rw [hparent, Block.parentAtDepth_eq hentries hlast hpos hmax, habove]
          rfl

theorem parentAtDepth_map_unindexed (before : Outline) (depth : Nat) :
    parentAtDepth (before.map OutlineItem.unindexed) depth = parentAtDepth before depth := by
  cases before with
  | nil => rfl
  | cons previous before =>
      have hfind : ((previous :: before).map OutlineItem.unindexed).find?
          (fun item => item.depth == depth) =
          ((previous :: before).find? fun item => item.depth == depth).map
            OutlineItem.unindexed := by
        rw [List.find?_map]
        rfl
      have hbind (found : Option OutlineItem) :
          (found.map OutlineItem.unindexed).bind OutlineItem.parent =
            found.bind OutlineItem.parent := by
        cases found <;> rfl
      rw [List.map_cons] at hfind ⊢
      rw [parentAtDepth, parentAtDepth, hfind, hbind]
      rfl

/-- A projection on the visible outline lands in what is left of the program. -/
theorem lands_of_projectUnits {program : Block} {active onto : String} {units : Int}
    {projection : Projection} (hnodup : program.ids.Nodup)
    (h : (program.visibleDuring active).projectUnits active onto units = .ok projection) :
    ∃ source target, (program.visibleDuring active).position? active = some source ∧
      (program.visibleDuring active).position? onto = some target ∧
      Lands ((program.without active).pruned (Statement.hiding active)) projection
        ((((program.visibleDuring active).eraseIdx source).take target).map
          OutlineItem.unindexed)
        ((((program.visibleDuring active).eraseIdx source).drop target).map
          OutlineItem.unindexed) := by
  obtain ⟨source, target, hsource, htarget, hmax, hmin, hparent⟩ :=
    Outline.projectUnits_eq_ok h
  refine ⟨source, target, hsource, htarget, ?_⟩
  rw [Block.visibleDuring_eq _ hnodup] at hsource htarget hmax hmin hparent ⊢
  have hvnodup := (Block.ids_pruned_sublist program (Statement.hiding active)).nodup hnodup
  generalize hpruned : program.pruned (Statement.hiding active) = visible at *
  have hactive : active ∈ visible.ids := mem_ids_of_position? hsource
  obtain ⟨node, hnode, _, hleaf⟩ := Block.exists_leaf_pruned (hpruned ▸ hactive)
  rw [hpruned] at hnode
  have hentries : (visible.outline.eraseIdx source).map OutlineItem.unindexed =
      ((program.without active).pruned (Statement.hiding active)).entriesFrom none 0 := by
    rw [← Block.without_pruned, hpruned, ← Block.entriesFrom_without hvnodup hnode hleaf,
      Outline.eraseIdx_of_position? hsource (Block.nodup_outline hvnodup),
      ← Block.map_unindexed_outlineFrom visible none 0 0, List.filter_map]
    rfl
  generalize visible.outline.eraseIdx source = items at *
  have hlevel : (((items.take target).map OutlineItem.unindexed).getLast?.map fun item =>
      item.depth + 1) = (items.take target).getLast?.map fun item => item.depth + 1 := by
    rw [List.getLast?_map, Option.map_map]
    rfl
  apply lands_of_bounds
  · rw [← List.map_append, List.take_append_drop, hentries]
  · rwa [hlevel]
  · intro item hitem
    rw [List.head?_map] at hitem
    obtain ⟨next, hnext, rfl⟩ := Option.map_eq_some_iff.mp hitem
    rw [hlevel]
    exact hmin next hnext
  · rw [hparent, ← List.map_reverse, parentAtDepth_map_unindexed]

/-! ## Committing a projection -/

section Commit

variable {program : Block} {active onto : String} {node : Node} {projection : Projection}
  (hnodup : program.ids.Nodup) (hfind : program.find? active = some node)

include hnodup hfind

/-- A projection whose parent is there and not under the dragged statement is applied by
grafting. -/
theorem applyProjection_eq_graft
    (hparent : (program.without active).HasParent none projection.parent)
    (honto : onto = active ∨ onto ∈ (program.without active).ids) :
    ∃ source target, program.outline.position? active = some source ∧
      program.outline.position? onto = some target ∧
      program.applyProjection active onto projection =
        .ok ((program.without active).graft projection.parent none node
          (((program.outline.eraseIdx source).take target).countP fun item =>
            item.parent == projection.parent)) := by
  obtain ⟨hid, hnode, hrest, hdisjoint⟩ := Block.ids_disjoint_of_find? hnodup hfind
  have hids := Block.map_id_outline program
  have hactive : active ∈ program.ids := Block.find?_isSome_iff.mp (by rw [hfind]; rfl)
  have honto' : onto ∈ program.ids := by
    rcases honto with rfl | honto
    · exact hactive
    · exact (Block.ids_without_sublist program active).subset honto
  obtain ⟨source, hsource⟩ := Option.isSome_iff_exists.mp
    (Outline.position?_isSome.mpr (hids ▸ hactive))
  obtain ⟨target, htarget⟩ := Option.isSome_iff_exists.mp
    (Outline.position?_isSome.mpr (hids ▸ honto'))
  refine ⟨source, target, hsource, htarget, ?_⟩
  have hcycle : ¬ projection.parent.any node.ids.contains = true := by
    intro hany
    obtain ⟨id, heq, hid⟩ := (Option.any_eq_true ..).mp hany
    rw [heq] at hparent
    exact Block.not_hasParent_without hnodup hfind (List.contains_iff_mem.mp hid) hparent
  have hnested : ¬ (onto ≠ active && node.ids.contains onto) = true := by
    intro h
    rw [Bool.and_eq_true, decide_eq_true_iff, List.contains_iff_mem] at h
    rcases honto with rfl | honto
    · exact h.1 rfl
    · exact hdisjoint onto h.2 honto
  have hlt := Outline.lt_length_of_position? hsource
  have hitem := List.getElem?_eq_getElem hlt
  have hstatement : program.outline[source].statement = node.head := by
    apply Block.eq_of_id_eq hnodup
    · rw [← Block.map_statement_outline program]
      exact List.mem_map_of_mem (List.getElem_mem hlt)
    · exact Block.head_mem_of_find? hfind
    · rw [hid]
      exact Outline.id_of_position? hsource hitem
  generalize hplace : (fun item : OutlineItem =>
    { item with depth := projection.depth, parent := projection.parent }) = place
  have hplaced : (program.outline.modify source place)[source]? =
      some (place program.outline[source]) := by
    rw [List.getElem?_modify_eq, hitem]
    rfl
  have htarget' : target < (program.outline.modify source place).length := by
    rw [List.length_modify]
    exact Outline.lt_length_of_position? htarget
  have hdescribes := describes_reordered hnodup hfind target (place program.outline[source])
    hparent hsource (by rw [← hplace]; exact hstatement) (by rw [← hplace])
  have hrebuilt := hdescribes.rebuild_eq
    (Block.nodup_graft _ hrest (Block.ne_none _) hparent hnode hdisjoint)
  have hreorder : Outline.reorder (program.outline.modify source place) source target =
      (program.outline.eraseIdx source).take target
        ++ place program.outline[source] :: (program.outline.eraseIdx source).drop target := by
    rw [Outline.reorder_eq hplaced htarget', List.eraseIdx_modify_of_eq]
  have hsubtree : program.subtreeIds active = .ok node.ids := by
    rw [Block.subtreeIds, Block.get, hfind]
    rfl
  unfold Block.applyProjection
  rw [hsubtree, hplace]
  simp only [bind, Except.bind, hsource, htarget]
  rw [if_neg hcycle, if_neg hnested, hreorder, hrebuilt]
  rfl

end Commit

/-- Under a visible parent that hides nothing, as many statements stand in front among the
visible items as among all. -/
theorem countP_front_eq {program : Block} {active onto : String} {parent : Option String}
    (hnodup : program.ids.Nodup)
    (hactive : active ∈ (program.pruned (Statement.hiding active)).ids)
    (honto : onto ∈ (program.pruned (Statement.hiding active)).ids)
    (hshown : ∀ s ∈ program.statements, some s.id = parent →
      Statement.hiding active s = false)
    (hparent : (program.pruned (Statement.hiding active)).HasParent none parent) :
    (Outline.front active onto (program.pruned (Statement.hiding active)).outline).countP
        (fun item => item.parent == parent) =
      (Outline.front active onto program.outline).countP fun item => item.parent == parent := by
  have hvisible := Outline.eq_filter_of_sublist
    (Block.outlineFrom_pruned_sublist program (Statement.hiding active) none 0 0)
    (Block.nodup_outline hnodup)
  rw [Block.map_id_outlineFrom] at hvisible
  have hunder := Block.under_pruned hnodup program.ne_none hshown hparent
  rw [Block.outline, hvisible, ← Block.outline, Outline.front_filter, List.countP_filter]
  · apply List.countP_congr
    intro item hitem
    rw [Bool.and_eq_true, decide_eq_true_iff, beq_iff_eq]
    refine and_iff_left_of_imp fun hitemParent => ?_
    have hmem : item ∈ program.outline := by
      rcases List.mem_append.mp hitem with hitem | hitem
      · exact (List.takeWhile_sublist _).subset (List.mem_filter.mp hitem).1
      · split at hitem
        · exact (List.mem_filter.mp hitem).1
        · cases hitem
    have hstatement : item.statement ∈ program.under parent none := by
      rw [← Block.filter_parent_outlineFrom program parent none 0 0]
      exact List.mem_map_of_mem (List.mem_filter.mpr ⟨hmem, by simpa using hitemParent⟩)
    rw [← hunder] at hstatement
    exact Block.id_mem_of_mem_under hstatement
  · rintro item _ rfl
    simpa using hactive
  · rintro item _ rfl
    simpa using honto

/-- A statement that is open hides nothing unless it is the dragged one. -/
theorem hiding_eq_false {program : Block} {active : String} {node : Node} {parent : Option String}
    (hnodup : program.ids.Nodup) (hfind : program.find? active = some node)
    (hparent : (program.without active).HasParent none parent)
    (hopen : ∀ s ∈ program.statements, some s.id = parent → s.collapsed = false) :
    ∀ s ∈ program.statements, some s.id = parent → Statement.hiding active s = false := by
  intro s hs hid
  have hne : s.id ≠ active := by
    rintro rfl
    rw [← hid] at hparent
    refine Block.not_hasParent_without hnodup hfind ?_ hparent
    rw [Block.node_ids, (Block.find?_spec hfind).1]
    exact .head _
  rw [Statement.hiding, hopen s hs hid, Bool.false_or]
  simpa using hne

/-- Grafted on under a statement that hides nothing, the dragged statement is visible at the
place it lands at. -/
theorem map_id_visibleDuring_graft {program : Block} {active onto : String} {node : Node}
    {projection : Projection} {source target : Nat}
    (hnodup : program.ids.Nodup) (hfind : program.find? active = some node)
    (hsource : (program.visibleDuring active).position? active = some source)
    (htarget : (program.visibleDuring active).position? onto = some target)
    (hlands : Lands ((program.without active).pruned (Statement.hiding active)) projection
      ((((program.visibleDuring active).eraseIdx source).take target).map OutlineItem.unindexed)
      ((((program.visibleDuring active).eraseIdx source).drop target).map OutlineItem.unindexed))
    (hparent : (program.without active).HasParent none projection.parent)
    (hshown : ∀ s ∈ program.statements, some s.id = projection.parent →
      Statement.hiding active s = false) :
    (((program.without active).graft projection.parent none node
        ((((program.visibleDuring active).eraseIdx source).take target).countP fun item =>
          item.parent == projection.parent)).visibleDuring active).map OutlineItem.id =
      ((program.visibleDuring active).reorder source target).map OutlineItem.id := by
  obtain ⟨rfl, hnode, hrest, hdisjoint⟩ := Block.ids_disjoint_of_find? hnodup hfind
  have hperm := Block.statements_perm_without hnodup hfind
  have hentries := hlands.entriesFrom_graft node.head ((Block.ids_pruned_sublist ..).nodup hrest)
  rw [List.countP_map] at hentries
  have hitem := List.getElem?_eq_getElem (Outline.lt_length_of_position? hsource)
  rw [Block.visibleDuring_eq _
      (Block.nodup_graft _ hrest (Block.ne_none _) hparent hnode hdisjoint),
    Block.pruned_graft fun s hs => hshown s (hperm.mem_iff.mpr (List.mem_append_right _ hs)),
    if_pos (by simp [Statement.hiding]), Block.map_id_outline, ← Block.map_id_entriesFrom _ none 0,
    Outline.reorder_eq hitem (Outline.lt_length_of_position? htarget)]
  refine (congrArg (List.map OutlineItem.id) hentries).trans ?_
  rw [List.map_append, List.map_append, List.map_cons, List.map_cons, List.map_map, List.map_map,
    Outline.id_of_position? hsource hitem]
  rfl

/-- A drag commits what it showed. Where a drag projects a landing place, dropping the statement
there succeeds. The program then has the same statements, is the same without the dragged one,
and has the same nested under it; the dragged statement has the parent and the depth that were
shown. Unless it lands under a collapsed statement, what is visible afterwards is what was
visible before, with the dragged statement moved to the place of the one it was dropped on. -/
theorem applyProjection_commits_projectUnits {program : Block} {active onto : String} {units : Int}
    {projection : Projection} (hnodup : program.ids.Nodup)
    (h : (program.visibleDuring active).projectUnits active onto units = .ok projection) :
    ∃ dropped, program.applyProjection active onto projection = .ok dropped ∧
      dropped.statements.Perm program.statements ∧
      (∃ rest, program.remove active = .ok rest ∧ dropped.remove active = .ok rest) ∧
      (∃ node, program.find? active = some node ∧ dropped.find? active = some node) ∧
      (∃ item ∈ dropped.outline, item.id = active ∧ item.parent = projection.parent ∧
        item.depth = projection.depth) ∧
      ((∀ s ∈ program.statements, some s.id = projection.parent → s.collapsed = false) →
        ∃ source target, (program.visibleDuring active).position? active = some source ∧
          (program.visibleDuring active).position? onto = some target ∧
          (dropped.visibleDuring active).map OutlineItem.id =
            ((program.visibleDuring active).reorder source target).map OutlineItem.id) := by
  obtain ⟨source, target, hsource, htarget, hlands⟩ := lands_of_projectUnits hnodup h
  have hvisible := Block.visibleDuring_eq active hnodup
  rw [hvisible] at hsource htarget hlands ⊢
  have hactiveVisible := mem_ids_of_position? hsource
  have hontoVisible := mem_ids_of_position? htarget
  have hvisibleSub := Block.ids_pruned_sublist program (Statement.hiding active)
  have hvisibleNodup := hvisibleSub.nodup hnodup
  obtain ⟨node, hfind⟩ := Option.isSome_iff_exists.mp
    (Block.find?_isSome_iff.mpr (hvisibleSub.subset hactiveVisible))
  obtain ⟨rfl, hnode, hrest, hdisjoint⟩ := Block.ids_disjoint_of_find? hnodup hfind
  generalize hrestEq : program.without node.head.id = rest at *
  have hrestSub := Block.ids_pruned_sublist rest (Statement.hiding node.head.id)
  have hout : node.head.id ∉ rest.ids := by
    apply hdisjoint
    rw [Block.node_ids]
    exact .head _
  have hperm := Block.statements_perm_without hnodup hfind
  rw [hrestEq] at hperm
  have hparent := hlands.hasParent.mono fun _ hid => hrestSub.subset hid
  have honto : onto = node.head.id ∨ onto ∈ rest.ids := by
    obtain ⟨leaf, hleaf, hid, hbody⟩ := Block.exists_leaf_pruned hactiveVisible
    have hmem := (Block.ids_perm_without hvisibleNodup hleaf).mem_iff.mp hontoVisible
    rw [Block.node_ids, hid, hbody, Block.without_pruned, hrestEq, List.mem_append] at hmem
    rcases hmem with hmem | hmem
    · exact .inl (by simpa using hmem)
    · exact .inr (hrestSub.subset hmem)
  obtain ⟨source', target', hsource', htarget', happly⟩ :=
    applyProjection_eq_graft hnodup hfind (hrestEq ▸ hparent) (hrestEq ▸ honto)
  generalize hindex : ((program.outline.eraseIdx source').take target').countP (fun item =>
    item.parent == projection.parent) = index at happly
  rw [hrestEq] at happly
  have hdropped := Block.nodup_graft index hrest rest.ne_none hparent hnode hdisjoint
  have hfound := Block.find?_graft index hrest rest.ne_none hparent hout
  refine ⟨_, happly, ?_, ⟨rest, ?_, ?_⟩, ⟨node, hfind, hfound⟩, ?_, ?_⟩
  · exact (Block.statements_graft node index hrest rest.ne_none hparent).trans hperm.symm
  · rw [Block.remove, Block.detach?_eq hnodup, hfind, ← hrestEq]
    rfl
  · rw [Block.remove, Block.detach?_eq hdropped, hfound, Block.without_graft hout]
    rfl
  · apply Block.exists_item_graft hrest rest.ne_none
    rcases hlands.parent_spec with hroot | ⟨item, hitem, hid, hdepth⟩
    · exact .inl hroot
    · rw [← Block.map_unindexed_outlineFrom _ none 0 0] at hitem
      obtain ⟨shown, hshown, rfl⟩ := List.mem_map.mp hitem
      exact .inr ⟨shown, (Block.outlineFrom_pruned_sublist ..).subset hshown, hid, hdepth⟩
  · intro hopen
    have hshown := hiding_eq_false hnodup hfind (hrestEq ▸ hparent) hopen
    have hvisibleParent : (program.pruned (Statement.hiding node.head.id)).HasParent none
        projection.parent := by
      apply hlands.hasParent.mono
      rw [← hrestEq, ← Block.without_pruned]
      exact (Block.ids_without_sublist _ _).subset
    have hcount := countP_front_eq hnodup hactiveVisible hontoVisible hshown hvisibleParent
    rw [← Outline.take_eraseIdx_of_position? hsource htarget (Block.nodup_outline hvisibleNodup),
      ← Outline.take_eraseIdx_of_position? hsource' htarget' (Block.nodup_outline hnodup),
      hindex] at hcount
    rw [← hvisible] at hsource htarget hlands hcount ⊢
    refine ⟨source, target, hsource, htarget, ?_⟩
    rw [← hcount, ← hrestEq]
    exact map_id_visibleDuring_graft hnodup hfind hsource htarget (hrestEq ▸ hlands)
      (hrestEq ▸ hparent) hshown

/-- A loop with one statement in it and one behind it. -/
def loopThenOutput : Block :=
  .cons ⟨"loop", .whileLoop, ["x < 3"], false, false⟩
    (.cons ⟨"inner", .increment, ["x", "1"], false, false⟩ .nil .nil)
    (.cons ⟨"outer", .output, ["x"], false, false⟩ .nil .nil)

/-- Dragged onto the statement in the loop and one unit to the right, the statement behind the
loop lands in it. -/
theorem applyProjection_loopThenOutput :
    loopThenOutput.ids.Nodup ∧
      (loopThenOutput.visibleDuring "outer").projectUnits "outer" "inner" 1 =
        .ok ⟨1, some "loop", 1, 1⟩ ∧
      ∃ dropped, loopThenOutput.applyProjection "outer" "inner" ⟨1, some "loop", 1, 1⟩ =
          .ok dropped ∧
        dropped.statements.Perm loopThenOutput.statements := by
  have hnodup : loopThenOutput.ids.Nodup := by decide
  have hprojection : (loopThenOutput.visibleDuring "outer").projectUnits "outer" "inner" 1 =
      .ok ⟨1, some "loop", 1, 1⟩ := by decide
  obtain ⟨dropped, happly, hperm, _⟩ :=
    applyProjection_commits_projectUnits hnodup hprojection
  exact ⟨hnodup, hprojection, dropped, happly, hperm⟩

end BlockCode
