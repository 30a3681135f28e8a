/- # What stays visible

Hiding works on the list of items and follows the names of parents. On the outline of a program
with distinct identifiers it comes to the same as cutting the program itself: under each hidden
statement everything goes, and what is left is the outline of the smaller program.
-/

import Mathlib.Data.List.Nodup
import BlockCode.Program.Drag
import BlockCode.Proofs.Program.Graft

namespace BlockCode

namespace Outline

/-- Where identifiers are distinct, an item is found by its identifier. -/
theorem find?_id {items : Outline} {item : OutlineItem}
    (hnodup : (items.map OutlineItem.id).Nodup) (hitem : item ∈ items) :
    items.find? (fun other => other.id == item.id) = some item := by
  cases hfind : items.find? fun other => other.id == item.id with
  | none =>
      rw [List.find?_eq_none] at hfind
      exact absurd (beq_self_eq_true item.id) (hfind item hitem)
  | some other =>
      have hid : other.id = item.id := by simpa using List.find?_some hfind
      rw [List.inj_on_of_nodup_map hnodup (List.mem_of_find?_eq_some hfind) hitem hid]

/-- Only what items name as their parents matters among the hidden identifiers. -/
theorem hideBelow_congr {items : Outline} {hidden hidden' : List String}
    (h : ∀ item ∈ items, ∀ id, item.parent = some id → (id ∈ hidden ↔ id ∈ hidden')) :
    items.hideBelow hidden = items.hideBelow hidden' := by
  induction items generalizing hidden hidden' with
  | nil => rfl
  | cons item items ih =>
      have hparent : item.parent.any hidden.contains = item.parent.any hidden'.contains := by
        cases hitem : item.parent with
        | none => rfl
        | some id =>
            rw [Bool.eq_iff_iff, Option.any_some, Option.any_some, List.contains_iff_mem,
              List.contains_iff_mem]
            exact h item (.head _) id hitem
      rw [hideBelow, hideBelow, hparent, ih fun item hitem => h item (.tail _ hitem)]
      congr 1
      apply ih
      intro other hother id hid
      rw [List.mem_cons, List.mem_cons, h other (.tail _ hother) id hid]

/-- Where identifiers are distinct, the items of a part of the list are those with an identifier
of the part. -/
theorem eq_filter_of_sublist {items part : Outline} (h : part.Sublist items)
    (hnodup : (items.map OutlineItem.id).Nodup) :
    part = items.filter fun item => decide (item.id ∈ part.map OutlineItem.id) := by
  induction h with
  | slnil => rfl
  | @cons part items item hsub ih =>
      rw [List.map_cons, List.nodup_cons] at hnodup
      have hout : item.id ∉ part.map OutlineItem.id := fun hmem =>
        hnodup.1 ((hsub.map _).subset hmem)
      rw [List.filter_cons_of_neg (by simpa using hout)]
      exact ih hnodup.2
  | @cons_cons part items item hsub ih =>
      rw [List.map_cons, List.nodup_cons] at hnodup
      rw [List.filter_cons_of_pos (by simp)]
      congr 1
      refine (ih hnodup.2).trans ?_
      apply List.filter_congr
      intro other hother
      have hne : other.id ≠ item.id := by
        intro heq
        exact hnodup.1 (heq ▸ List.mem_map_of_mem hother)
      simp [hne]

end Outline

/-- Whether what is nested under a statement is hidden while `active` is dragged. -/
def Statement.hiding (active : String) (s : Statement) : Bool :=
  s.collapsed || s.id == active

namespace Block

/-- The block without what is nested under hidden statements. -/
def pruned (hide : Statement → Bool) : Block → Block
  | .nil => .nil
  | .cons head body next =>
    .cons head (if hide head then .nil else body.pruned hide) (next.pruned hide)

theorem parent_of_mem_outlineFrom {b : Block} {own : Option String} {depth index : Nat}
    {item : OutlineItem} (h : item ∈ b.outlineFrom own depth index) :
    item.parent = own ∨ ∃ id ∈ b.ids, item.parent = some id := by
  induction b generalizing own depth index with
  | nil => cases h
  | cons head body next ihbody ihnext =>
      rw [outlineFrom, List.mem_cons, List.mem_append] at h
      rcases h with rfl | h | h
      · exact .inl rfl
      · rcases ihbody h with hparent | ⟨id, hid, hparent⟩
        · exact .inr ⟨head.id, by simp, hparent⟩
        · exact .inr ⟨id, by simp [hid], hparent⟩
      · rcases ihnext h with hparent | ⟨id, hid, hparent⟩
        · exact .inl hparent
        · exact .inr ⟨id, by simp [hid], hparent⟩

/-- Everything under a hidden parent is hidden, and its identifiers join the hidden ones. -/
theorem hideBelow_outlineFrom_hidden (b : Block) {parent : String} {hidden : List String}
    (h : parent ∈ hidden) (depth index : Nat) (rest : Outline) :
    Outline.hideBelow hidden (b.outlineFrom (some parent) depth index ++ rest) =
      Outline.hideBelow (b.ids.reverse ++ hidden) rest := by
  induction b generalizing parent hidden depth index rest with
  | nil => rfl
  | cons head body next ihbody ihnext =>
      have hany : (some parent).any hidden.contains = true := by simpa using h
      have hhead : head.id ∈ head.id :: hidden := .head _
      rw [outlineFrom, List.cons_append, List.append_assoc, Outline.hideBelow, if_pos hany,
        OutlineItem.id, ihbody hhead, ihnext (by simp [h])]
      simp

/-- Hiding goes through the outline of a visible block and prunes it, and what follows is hidden
as before. -/
theorem hideBelow_outlineFrom {b : Block} {own : Option String} {hidden : List String}
    {rest : Outline} (hnodup : b.ids.Nodup) (hown : ∀ id ∈ b.ids, some id ≠ own)
    (hvisible : ∀ id ∈ hidden, some id ≠ own)
    (hrest : ∀ item ∈ rest, ∀ id ∈ b.ids, item.parent ≠ some id) (depth index : Nat) :
    Outline.hideBelow hidden (b.outlineFrom own depth index ++ rest) =
      (b.pruned fun s => decide (s.id ∈ hidden)).outlineFrom own depth index ++
        Outline.hideBelow hidden rest := by
  induction b generalizing own rest depth index with
  | nil => rfl
  | cons head body next ihbody ihnext =>
      obtain ⟨hbody, hnext, hnodupBody, hnodupNext, hdisjoint⟩ := nodup_ids_cons.mp hnodup
      have hnot : ¬ own.any hidden.contains = true := by
        cases own with
        | none => simp
        | some id => simpa using fun hid => hvisible id hid rfl
      have hnextRest : ∀ item ∈ next.outlineFrom own depth (index + 1) ++ rest,
          ∀ id ∈ body.ids, item.parent ≠ some id := by
        intro item hitem id hid heq
        rcases List.mem_append.mp hitem with hitem | hitem
        · rcases parent_of_mem_outlineFrom hitem with hparent | ⟨other, hother, hparent⟩
          · exact hown id (by simp [hid]) (heq.symm.trans hparent)
          · cases heq.symm.trans hparent
            exact hdisjoint id hid hother
        · exact hrest item hitem id (by simp [hid]) heq
      have hafter := ihnext hnodupNext (ne_own_of_cons hown) hvisible
        (fun item hitem id hid => hrest item hitem id (by simp [hid])) depth (index + 1)
      rw [outlineFrom, List.cons_append, List.append_assoc, Outline.hideBelow, if_neg hnot]
      by_cases hhead : head.id ∈ hidden
      · have hsame : Outline.hideBelow (body.ids.reverse ++ hidden)
            (next.outlineFrom own depth (index + 1) ++ rest) =
            Outline.hideBelow hidden (next.outlineFrom own depth (index + 1) ++ rest) := by
          apply Outline.hideBelow_congr
          intro item hitem id hparent
          rw [List.mem_append, List.mem_reverse]
          constructor
          · rintro (hid | hid)
            · exact absurd hparent (hnextRest item hitem id hid)
            · exact hid
          · exact .inr
        rw [hideBelow_outlineFrom_hidden body hhead, hsame, hafter]
        simp [pruned, outlineFrom, hhead]
      · have hshown : ∀ id ∈ hidden, some id ≠ some head.id := by
          rintro id hid heq
          cases heq
          exact hhead hid
        have hinner := ihbody hnodupBody (ne_head_of_nodup hnodup) hshown hnextRest (depth + 1) 0
        rw [hinner, hafter]
        simp [pruned, outlineFrom, hhead]

theorem pruned_congr {b : Block} {hide hide' : Statement → Bool}
    (h : ∀ s ∈ b.statements, hide s = hide' s) : b.pruned hide = b.pruned hide' := by
  induction b with
  | nil => rfl
  | cons head body next ihbody ihnext =>
      simp only [statements, List.mem_cons, List.mem_append] at h
      rw [pruned, pruned, h head (.inl rfl), ihbody fun s hs => h s (.inr (.inl hs)),
        ihnext fun s hs => h s (.inr (.inr hs))]

/-- Where identifiers are distinct, they tell statements apart. -/
theorem eq_of_id_eq {b : Block} {s t : Statement} (hnodup : b.ids.Nodup)
    (hs : s ∈ b.statements) (ht : t ∈ b.statements) (hid : s.id = t.id) : s = t :=
  List.inj_on_of_nodup_map hnodup hs ht hid

/-- While a statement is dragged, the outline of the pruned program is visible. -/
theorem visibleDuring_eq {program : Block} (active : String) (hnodup : program.ids.Nodup) :
    program.visibleDuring active = (program.pruned (Statement.hiding active)).outline := by
  unfold visibleDuring
  dsimp only
  generalize hhidden : ((program.outline.filter fun item =>
    item.statement.collapsed && item.id != active).map OutlineItem.id) ++ [active] = hidden
  have happend : Outline.hideBelow hidden (program.outlineFrom none 0 0 ++ []) =
      (program.pruned fun s => decide (s.id ∈ hidden)).outlineFrom none 0 0 ++
        Outline.hideBelow hidden [] :=
    hideBelow_outlineFrom hnodup (by simp) (by simp) (by simp) 0 0
  rw [List.append_nil, Outline.hideBelow, List.append_nil] at happend
  have hsame : program.pruned (fun s => decide (s.id ∈ hidden)) =
      program.pruned (Statement.hiding active) := by
    apply pruned_congr
    intro s hs
    rw [Bool.eq_iff_iff, decide_eq_true_iff, ← hhidden, Statement.hiding, Bool.or_eq_true,
      beq_iff_eq, List.mem_append, List.mem_singleton]
    by_cases hid : s.id = active
    · simp [hid]
    · rw [or_iff_left hid, or_iff_left hid]
      constructor
      · intro hmem
        obtain ⟨item, hitem, heq⟩ := List.mem_map.mp hmem
        obtain ⟨hitem, hcollapsed⟩ := List.mem_filter.mp hitem
        have hstatement : item.statement ∈ program.statements := by
          rw [← map_statement_outline program]
          exact List.mem_map_of_mem hitem
        rw [← eq_of_id_eq hnodup hstatement hs heq]
        exact (Bool.and_eq_true _ _ ▸ hcollapsed).1
      · intro hcollapsed
        rw [← map_statement_outline program] at hs
        obtain ⟨item, hitem, rfl⟩ := List.mem_map.mp hs
        refine List.mem_map.mpr ⟨item, List.mem_filter.mpr ⟨hitem, ?_⟩, rfl⟩
        simpa [hcollapsed, OutlineItem.id] using hid
  rw [outline, happend, hsame]
  rfl

/-! ## Pruning and the other operations -/

theorem ids_pruned_sublist (b : Block) (hide : Statement → Bool) :
    (b.pruned hide).ids.Sublist b.ids := by
  induction b with
  | nil => exact .refl _
  | cons head body next ihbody ihnext =>
      rw [pruned, ids_cons, ids_cons]
      split
      · exact (ihnext.trans (List.sublist_append_right _ _)).cons_cons _
      · exact (ihbody.append ihnext).cons_cons _

theorem outlineFrom_pruned_sublist (b : Block) (hide : Statement → Bool) (own : Option String)
    (depth index : Nat) : ((b.pruned hide).outlineFrom own depth index).Sublist
      (b.outlineFrom own depth index) := by
  induction b generalizing own depth index with
  | nil => exact .refl _
  | cons head body next ihbody ihnext =>
      rw [pruned, outlineFrom, outlineFrom]
      split
      · exact ((ihnext ..).trans (List.sublist_append_right _ _)).cons_cons _
      · exact ((ihbody ..).append (ihnext ..)).cons_cons _

theorem without_pruned (b : Block) (hide : Statement → Bool) (id : String) :
    (b.pruned hide).without id = (b.without id).pruned hide := by
  induction b with
  | nil => rfl
  | cons head body next ihbody ihnext =>
      rw [pruned, without, without]
      by_cases hid : head.id = id
      · rw [if_pos hid, if_pos hid]
      · rw [if_neg hid, if_neg hid, pruned, ihnext]
        by_cases hhide : hide head
        · rw [if_pos hhide, if_pos hhide]
          rfl
        · rw [if_neg hhide, if_neg hhide, ihbody]

/-- Nothing is nested under a hidden statement that is still visible. -/
theorem body_eq_nil_of_find?_pruned {b : Block} {hide : Statement → Bool} {id : String}
    {node : Node} (h : (b.pruned hide).find? id = some node) (hhide : hide node.head = true) :
    node.body = .nil := by
  induction b with
  | nil => cases h
  | cons head body next ihbody ihnext =>
      rw [pruned, find?] at h
      split at h
      · cases h
        rw [if_pos hhide]
      · rcases Option.or_eq_some_iff.mp h with h | ⟨_, h⟩
        · split at h
          · cases h
          · exact ihbody h
        · exact ihnext h

theorem pruned_insertAt (b : Block) (hide : Statement → Bool) (node : Node) (index : Nat) :
    (b.insertAt node index).pruned hide =
      (b.pruned hide).insertAt ⟨node.head, if hide node.head then .nil else node.body.pruned hide⟩
        index := by
  induction b generalizing index with
  | nil => simp [insertAt_nil, Node.toBlock, pruned]
  | cons head body next _ ih =>
      cases index with
      | zero => simp [insertAt_zero, pruned]
      | succ index => rw [insertAt, pruned, pruned, insertAt, ih]

/-- A node put under a parent that hides nothing is put there in the pruned block too. -/
theorem pruned_graft {b : Block} {hide : Statement → Bool} {parent own : Option String}
    {node : Node} {index : Nat}
    (hparent : ∀ s ∈ b.statements, some s.id = parent → hide s = false) :
    (b.graft parent own node index).pruned hide =
      (b.pruned hide).graft parent own
        ⟨node.head, if hide node.head then .nil else node.body.pruned hide⟩ index := by
  induction b generalizing own with
  | nil =>
      rw [pruned, graft, graft]
      split
      · rw [pruned_insertAt]
        rfl
      · rfl
  | cons head body next ihbody ihnext =>
      simp only [statements, List.mem_cons, List.mem_append] at hparent
      by_cases hown : own = parent
      · rw [hown, graft_own, graft_own, pruned_insertAt]
      · rw [graft, if_neg hown, pruned, pruned, graft, if_neg hown,
          ihnext fun s hs => hparent s (.inr (.inr hs))]
        by_cases hhide : hide head
        · have hne : some head.id ≠ parent := by
            intro heq
            rw [hparent head (.inl rfl) heq] at hhide
            cases hhide
          rw [if_pos hhide, if_pos hhide, graft, if_neg hne]
        · rw [if_neg hhide, if_neg hhide, ihbody fun s hs => hparent s (.inr (.inl hs))]

/-- What stays visible under a statement. -/
def shownBody (hide : Statement → Bool) (head : Statement) (body : Block) : Block :=
  if hide head then .nil else body.pruned hide

theorem pruned_cons (hide : Statement → Bool) (head : Statement) (body next : Block) :
    (cons head body next).pruned hide = cons head (shownBody hide head body) (next.pruned hide) :=
  rfl

theorem ids_shownBody_subset (hide : Statement → Bool) (head : Statement) (body : Block) :
    ∀ id ∈ (shownBody hide head body).ids, id ∈ body.ids := by
  intro id hid
  rw [shownBody] at hid
  split at hid
  · cases hid
  · exact (ids_pruned_sublist body hide).subset hid

/-- Under a visible parent that hides nothing everything is visible. -/
theorem under_pruned {b : Block} {hide : Statement → Bool} {parent own : Option String}
    (hnodup : b.ids.Nodup) (hown : ∀ id ∈ b.ids, some id ≠ own)
    (hparent : ∀ s ∈ b.statements, some s.id = parent → hide s = false)
    (h : (b.pruned hide).HasParent own parent) :
    (b.pruned hide).under parent own = b.under parent own := by
  induction b generalizing own with
  | nil => rfl
  | cons head body next ihbody ihnext =>
      obtain ⟨_, _, hnodupBody, hnodupNext, _⟩ := nodup_ids_cons.mp hnodup
      simp only [statements, List.mem_cons, List.mem_append] at hparent
      have hbodySub := ids_shownBody_subset hide head body
      have hnextSub := (ids_pruned_sublist next hide).subset
      have hbelow : (shownBody hide head body).HasParent (some head.id) parent →
          (shownBody hide head body).under parent (some head.id) =
            body.under parent (some head.id) := by
        intro hin
        rw [shownBody] at hin ⊢
        split
        · rename_i hhide
          rw [if_pos hhide] at hin
          rcases hin with heq | ⟨id, hid, _⟩
          · rw [hparent head (.inl rfl) heq] at hhide
            cases hhide
          · cases hid
        · rename_i hhide
          rw [if_neg hhide] at hin
          exact ihbody hnodupBody (ne_head_of_nodup hnodup)
            (fun s hs => hparent s (.inr (.inl hs))) hin
      have hafter : (next.pruned hide).HasParent own parent →
          (next.pruned hide).under parent own = next.under parent own :=
        ihnext hnodupNext (ne_own_of_cons hown) fun s hs => hparent s (.inr (.inr hs))
      have hsub := (ids_pruned_sublist (cons head body next) hide)
      rw [pruned_cons] at h hsub ⊢
      rw [under, under]
      rcases h.cases (hsub.nodup hnodup) (fun id hid => hown id (hsub.subset hid)) with
        rfl | ⟨hne, hin, hout⟩ | ⟨hne, hout, hin⟩
      · have hhead := hown head.id (by simp)
        rw [hafter (.inl rfl), under_eq_nil hhead fun id hid => hown id (by
            simp [hbodySub id hid]), under_eq_nil hhead fun id hid => hown id (by simp [hid])]
      · have hnext := (hin.mono hbodySub).not_next hnodup hown
        rw [hbelow hin, under_of_not_hasParent hout, under_of_not_hasParent hnext]
      · have hbody : ¬ body.HasParent (some head.id) parent := fun hbody =>
          hbody.not_next hnodup hown (hin.mono hnextSub)
        rw [hafter hin, under_of_not_hasParent hout, under_of_not_hasParent hbody]

/-- The dragged statement, if it is visible, hides what is nested under it. -/
theorem exists_leaf_pruned {b : Block} {active : String}
    (h : active ∈ (b.pruned (Statement.hiding active)).ids) :
    ∃ node, (b.pruned (Statement.hiding active)).find? active = some node ∧
      node.head.id = active ∧ node.body = .nil := by
  obtain ⟨node, hnode⟩ := Option.isSome_iff_exists.mp (find?_isSome_iff.mpr h)
  have hid := (find?_spec hnode).1
  refine ⟨node, hnode, hid, body_eq_nil_of_find?_pruned hnode ?_⟩
  rw [Statement.hiding, hid, beq_self_eq_true, Bool.or_true]

end Block

end BlockCode
