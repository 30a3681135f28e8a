/- # Taking statements out and putting them in

A program with distinct identifiers is what is left of it without one statement, with that
statement grafted on again at one place. What is said about grafting therefore says at the same
time what holds before a statement is moved and what holds after.
-/

import BlockCode.Proofs.Program.Rebuild

namespace BlockCode

namespace Block

/-- The block without the statement of the identifier and what is nested under it. -/
def without (id : String) : Block → Block
  | .nil => .nil
  | .cons head body next =>
    if head.id = id then next else .cons head (body.without id) (next.without id)

/-- The block, which stands under `own`, with a node put in front of the statement at the index
among those under `parent`. -/
def graft (parent own : Option String) (node : Node) (index : Nat) : Block → Block
  | .nil => if own = parent then insertAt node index .nil else .nil
  | .cons head body next =>
    if own = parent then insertAt node index (.cons head body next)
    else
      .cons head (body.graft parent (some head.id) node index)
        (next.graft parent own node index)

theorem graft_own (own : Option String) (node : Node) (index : Nat) (b : Block) :
    b.graft own own node index = b.insertAt node index := by
  cases b <;> rw [graft, if_pos rfl]

/-! ## Looking for identifiers -/

theorem id_mem_of_mem_nodes {b : Block} {node : Node} (h : node ∈ b.nodes) :
    node.head.id ∈ b.ids := by
  induction b with
  | nil => cases h
  | cons head body next _ ih =>
      rw [ids_cons, List.mem_cons, List.mem_append]
      rcases List.mem_cons.mp h with rfl | h
      · exact .inl rfl
      · exact .inr (.inr (ih h))

theorem find?_eq_none_iff {b : Block} {id : String} : b.find? id = none ↔ id ∉ b.ids := by
  induction b with
  | nil => simp [find?]
  | cons head body next ihbody ihnext =>
      rw [find?, ids_cons, List.mem_cons, List.mem_append]
      by_cases hid : head.id = id
      · simp [hid]
      · rw [if_neg (by simpa using hid), Option.or_eq_none_iff, ihbody, ihnext]
        simp [Ne.symm hid]

theorem find?_isSome_iff {b : Block} {id : String} : (b.find? id).isSome ↔ id ∈ b.ids := by
  rw [Option.isSome_iff_ne_none, ne_eq, find?_eq_none_iff, Decidable.not_not]

theorem find?_of_get {program : Block} {id : String} {node : Node}
    (h : program.get id = .ok node) : program.find? id = some node := by
  rw [get] at h
  split at h
  · next hfind =>
    cases h
    exact hfind
  · cases h

/-- What is found has the identifier, and its identifiers are among those of the block. -/
theorem find?_spec {b : Block} {id : String} {node : Node} (h : b.find? id = some node) :
    node.head.id = id ∧ node.ids.Sublist b.ids := by
  induction b with
  | nil => cases h
  | cons head body next ihbody ihnext =>
      rw [find?] at h
      split at h
      · next hid =>
        cases h
        refine ⟨eq_of_beq hid, ?_⟩
        rw [Node.ids, Node.toBlock, ids_cons, ids_cons, ids_nil, List.append_nil]
        exact (List.sublist_append_left _ _).cons_cons _
      · rcases Option.or_eq_some_iff.mp h with h | ⟨_, h⟩
        · obtain ⟨hid, hsub⟩ := ihbody h
          refine ⟨hid, ?_⟩
          rw [ids_cons]
          exact (hsub.trans (List.sublist_append_left _ _)).cons _
        · obtain ⟨hid, hsub⟩ := ihnext h
          refine ⟨hid, ?_⟩
          rw [ids_cons]
          exact (hsub.trans (List.sublist_append_right _ _)).cons _

theorem head_mem_of_find? {b : Block} {id : String} {node : Node} (h : b.find? id = some node) :
    node.head ∈ b.statements := by
  induction b with
  | nil => cases h
  | cons head body next ihbody ihnext =>
      rw [find?] at h
      rw [statements, List.mem_cons, List.mem_append]
      split at h
      · cases h
        exact .inl rfl
      · rcases Option.or_eq_some_iff.mp h with h | ⟨_, h⟩
        · exact .inr (.inl (ihbody h))
        · exact .inr (.inr (ihnext h))

theorem node_ids (node : Node) : node.ids = node.head.id :: node.body.ids := by
  rw [Node.ids, Node.toBlock, ids_cons, ids_nil, List.append_nil]

/-! ## Taking a statement out -/

theorem without_eq_self {b : Block} {id : String} (h : id ∉ b.ids) : b.without id = b := by
  induction b with
  | nil => rfl
  | cons head body next ihbody ihnext =>
      rw [ids_cons, List.mem_cons, List.mem_append, not_or, not_or] at h
      rw [without, if_neg (Ne.symm h.1), ihbody h.2.1, ihnext h.2.2]

theorem ids_without_sublist (b : Block) (id : String) : (b.without id).ids.Sublist b.ids := by
  induction b with
  | nil => exact .refl _
  | cons head body next ihbody ihnext =>
      rw [without, ids_cons]
      split
      · exact (List.sublist_append_right _ _).cons _
      · rw [ids_cons]
        exact (ihbody.append ihnext).cons_cons _

/-- A statement of the block itself is taken out first, whatever is nested elsewhere. -/
theorem removeSibling?_eq {b : Block} {id : String} (hnodup : b.ids.Nodup)
    (h : ∃ node ∈ b.nodes, node.head.id = id) :
    b.removeSibling? id = (b.find? id).map fun node => (node, b.without id) := by
  induction b with
  | nil =>
      obtain ⟨_, hnode, _⟩ := h
      cases hnode
  | cons head body next ihbody ihnext =>
      obtain ⟨_, _, _, hnodup', hdisjoint⟩ := nodup_ids_cons.mp hnodup
      rw [removeSibling?, find?, without]
      by_cases hid : head.id = id
      · simp [hid]
      · obtain ⟨node, hnode, hnodeId⟩ := h
        have htop : node ∈ next.nodes := by
          rcases List.mem_cons.mp hnode with rfl | hnode
          · exact absurd hnodeId hid
          · exact hnode
        have hbody : id ∉ body.ids := by
          intro hid'
          refine hdisjoint id hid' ?_
          rw [← hnodeId]
          exact id_mem_of_mem_nodes htop
        have hne : ¬ (head.id == id) = true := by simpa using hid
        rw [if_neg hne, if_neg hne, if_neg hid, ihnext hnodup' ⟨node, htop, hnodeId⟩,
          find?_eq_none_iff.mpr hbody, Option.none_or, without_eq_self hbody, Option.map_map]
        rfl

theorem removeSibling?_eq_none {b : Block} {id : String}
    (h : ¬ ∃ node ∈ b.nodes, node.head.id = id) : b.removeSibling? id = none := by
  induction b with
  | nil => rfl
  | cons head body next ihbody ihnext =>
      have hid : ¬ (head.id == id) = true := by
        intro hid
        exact h ⟨_, .head _, eq_of_beq hid⟩
      rw [removeSibling?, if_neg hid, ihnext]
      · rfl
      · rintro ⟨node, hnode, hid'⟩
        exact h ⟨node, .tail _ hnode, hid'⟩

/-- Taking out a statement of a program with distinct identifiers gives the node that is found
and leaves the program without it. -/
theorem detach?_eq {b : Block} {id : String} (hnodup : b.ids.Nodup) :
    b.detach? id = (b.find? id).map fun node => (node, b.without id) := by
  induction b with
  | nil => rfl
  | cons head body next ihbody ihnext =>
      obtain ⟨_, _, hnodupBody, hnodupNext, hdisjoint⟩ := nodup_ids_cons.mp hnodup
      rw [detach?]
      by_cases htop : ∃ node ∈ (Block.cons head body next).nodes, node.head.id = id
      · rw [removeSibling?_eq hnodup htop]
        obtain ⟨node, hnode, hid⟩ := htop
        have hmem : id ∈ (Block.cons head body next).ids := hid ▸ id_mem_of_mem_nodes hnode
        obtain ⟨found, hfound⟩ := Option.isSome_iff_exists.mp (find?_isSome_iff.mpr hmem)
        rw [hfound]
        rfl
      · rw [removeSibling?_eq_none htop]
        have hid : head.id ≠ id := fun hid => htop ⟨_, .head _, hid⟩
        have hne : ¬ (head.id == id) = true := by simpa using hid
        dsimp only
        rw [ihbody hnodupBody, ihnext hnodupNext, find?, without, if_neg hne, if_neg hid]
        cases hbody : body.find? id with
        | none =>
            rw [Option.map_none, Option.none_or,
              without_eq_self (find?_eq_none_iff.mp hbody), Option.map_map]
            rfl
        | some node =>
            have hmem : id ∈ body.ids := find?_isSome_iff.mp (by rw [hbody]; rfl)
            rw [without_eq_self (hdisjoint id hmem)]
            rfl

/-! ## Putting a node in -/

theorem insertAt_zero (node : Node) (b : Block) :
    b.insertAt node 0 = .cons node.head node.body b := by
  cases b <;> rfl

theorem insertAt_nil (node : Node) (index : Nat) : insertAt node index .nil = node.toBlock := by
  cases index <;> rfl

/-- The parents of a program with distinct identifiers under which something can be put. -/
def HasParent (b : Block) (own parent : Option String) : Prop :=
  own = parent ∨ ∃ id ∈ b.ids, some id = parent

theorem under_of_not_hasParent {b : Block} {own parent : Option String}
    (h : ¬ b.HasParent own parent) : b.under parent own = [] :=
  under_eq_nil (fun heq => h (.inl heq)) fun id hid heq => h (.inr ⟨id, hid, heq⟩)

theorem HasParent.mono {b b' : Block} {own parent : Option String} (h : b.HasParent own parent)
    (hsub : ∀ id ∈ b.ids, id ∈ b'.ids) : b'.HasParent own parent := by
  rcases h with heq | ⟨id, hid, heq⟩
  · exact .inl heq
  · exact .inr ⟨id, hsub id hid, heq⟩

theorem HasParent.of_body {head : Statement} {body next : Block} {own parent : Option String}
    (h : body.HasParent (some head.id) parent) : (cons head body next).HasParent own parent := by
  rcases h with heq | ⟨id, hid, heq⟩
  · exact .inr ⟨head.id, by simp, heq⟩
  · exact .inr ⟨id, by simp [hid], heq⟩

theorem HasParent.of_next {head : Statement} {body next : Block} {own parent : Option String}
    (h : next.HasParent own parent) : (cons head body next).HasParent own parent :=
  h.mono fun id hid => by simp [hid]

/-- Without its parent nothing is put in. -/
theorem graft_eq_self {b : Block} {parent own : Option String} {node : Node} {index : Nat}
    (h : ¬ b.HasParent own parent) : b.graft parent own node index = b := by
  induction b generalizing own with
  | nil => rw [graft, if_neg fun hown => h (.inl hown)]
  | cons head body next ihbody ihnext =>
      rw [graft, if_neg fun hown => h (.inl hown), ihbody fun hbody => h hbody.of_body,
        ihnext fun hnext => h hnext.of_next]

/-- A parent in the part under the first statement is not in the part behind it. -/
theorem HasParent.not_next {head : Statement} {body next : Block} {own parent : Option String}
    (hnodup : (Block.cons head body next).ids.Nodup)
    (hown : ∀ id ∈ (Block.cons head body next).ids, some id ≠ own)
    (h : body.HasParent (some head.id) parent) : ¬ next.HasParent own parent := by
  obtain ⟨_, hnext, _, _, hdisjoint⟩ := nodup_ids_cons.mp hnodup
  obtain ⟨id, hid, hout, rfl⟩ : ∃ id ∈ (Block.cons head body next).ids,
      id ∉ next.ids ∧ some id = parent := by
    rcases h with heq | ⟨id, hid, heq⟩
    · exact ⟨head.id, by simp, hnext, heq⟩
    · exact ⟨id, by simp [hid], hdisjoint id hid, heq⟩
  rintro (heq | ⟨id', hid', heq⟩)
  · exact hown id hid heq.symm
  · cases heq
    exact hout hid'

/-- The parent is in exactly one part of a block, or is the block's own. -/
theorem HasParent.cases {head : Statement} {body next : Block} {own parent : Option String}
    (hnodup : (Block.cons head body next).ids.Nodup)
    (hown : ∀ id ∈ (Block.cons head body next).ids, some id ≠ own)
    (h : (Block.cons head body next).HasParent own parent) :
    own = parent ∨
      own ≠ parent ∧ body.HasParent (some head.id) parent ∧ ¬ next.HasParent own parent ∨
      own ≠ parent ∧ ¬ body.HasParent (some head.id) parent ∧ next.HasParent own parent := by
  rcases h with rfl | ⟨id, hid, rfl⟩
  · exact .inl rfl
  · have hne := (hown id hid).symm
    rw [ids_cons, List.mem_cons, List.mem_append] at hid
    rcases hid with rfl | hid | hid
    · have hbody : body.HasParent (some head.id) (some head.id) := .inl rfl
      exact .inr (.inl ⟨hne, hbody, hbody.not_next hnodup hown⟩)
    · have hbody : body.HasParent (some head.id) (some id) := .inr ⟨id, hid, rfl⟩
      exact .inr (.inl ⟨hne, hbody, hbody.not_next hnodup hown⟩)
    · have hnext : next.HasParent own (some id) := .inr ⟨id, hid, rfl⟩
      exact .inr (.inr ⟨hne, fun hbody => hbody.not_next hnodup hown hnext, hnext⟩)

theorem statements_insertAt (node : Node) (index : Nat) (b : Block) :
    (b.insertAt node index).statements.Perm (node.toBlock.statements ++ b.statements) := by
  induction b generalizing index with
  | nil => simp [insertAt_nil, statements]
  | cons head body next _ ih =>
      cases index with
      | zero => simp [insertAt_zero, statements, Node.toBlock]
      | succ index =>
          rw [insertAt, statements, statements]
          refine (((ih index).append_left _).cons _).trans ?_
          exact (List.perm_append_comm_assoc _ _ _).cons head |>.trans List.perm_middle.symm

/-- What is put in comes on top of what was there. -/
theorem statements_graft {b : Block} {parent own : Option String} (node : Node) (index : Nat)
    (hnodup : b.ids.Nodup) (hown : ∀ id ∈ b.ids, some id ≠ own) (h : b.HasParent own parent) :
    (b.graft parent own node index).statements.Perm
      (node.toBlock.statements ++ b.statements) := by
  induction b generalizing own with
  | nil =>
      rcases h with rfl | ⟨_, hid, _⟩
      · rw [graft_own]
        exact statements_insertAt node index .nil
      · cases hid
  | cons head body next ihbody ihnext =>
      obtain ⟨hbody, _, hnodupBody, hnodupNext, _⟩ := nodup_ids_cons.mp hnodup
      have hownBody := ne_head_of_nodup hnodup
      rcases h.cases hnodup hown with rfl | ⟨hne, hin, hout⟩ | ⟨hne, hout, hin⟩
      · rw [graft_own]
        exact statements_insertAt node index _
      · rw [graft, if_neg hne, graft_eq_self hout, statements, statements]
        refine (((ihbody hnodupBody hownBody hin).append_right _).cons _).trans ?_
        rw [List.append_assoc]
        exact List.perm_middle.symm
      · rw [graft, if_neg hne, graft_eq_self hout, statements, statements]
        refine (((ihnext hnodupNext (ne_own_of_cons hown) hin).append_left
          _).cons _).trans ?_
        exact ((List.perm_append_comm_assoc _ _ _).cons head).trans List.perm_middle.symm

theorem ids_graft_perm {b : Block} {parent own : Option String} (node : Node) (index : Nat)
    (hnodup : b.ids.Nodup) (hown : ∀ id ∈ b.ids, some id ≠ own) (h : b.HasParent own parent) :
    (b.graft parent own node index).ids.Perm (node.ids ++ b.ids) := by
  have hperm := (statements_graft node index hnodup hown h).map Statement.id
  rwa [List.map_append] at hperm

/-- Identifiers stay distinct when the node brings none that is there already. -/
theorem nodup_graft {b : Block} {parent own : Option String} {node : Node} (index : Nat)
    (hnodup : b.ids.Nodup) (hown : ∀ id ∈ b.ids, some id ≠ own) (h : b.HasParent own parent)
    (hnode : node.ids.Nodup) (hdisjoint : ∀ id ∈ node.ids, id ∉ b.ids) :
    (b.graft parent own node index).ids.Nodup := by
  rw [(ids_graft_perm node index hnodup hown h).nodup_iff, List.nodup_append]
  refine ⟨hnode, hnodup, ?_⟩
  rintro id hid _ hid' rfl
  exact hdisjoint id hid hid'

/-! ### What is under each parent then -/

theorem under_insertAt_own {b : Block} {own : Option String} {node : Node} {index : Nat}
    (hb : ∀ id ∈ b.ids, some id ≠ own) (hnode : ∀ id ∈ node.ids, some id ≠ own) :
    (b.insertAt node index).under own own =
      (b.under own own).take index ++ node.head :: (b.under own own).drop index := by
  have hbelow : node.body.under own (some node.head.id) = [] := by
    rw [node_ids] at hnode
    exact under_eq_nil (hnode _ (.head _)) fun id hid => hnode id (.tail _ hid)
  induction b generalizing index with
  | nil => simp [insertAt_nil, Node.toBlock, under, hbelow]
  | cons head body next _ ih =>
      cases index with
      | zero =>
          rw [insertAt_zero, under, if_pos rfl, hbelow]
          rfl
      | succ index =>
          simp only [ids_cons, List.mem_cons, List.mem_append] at hb
          have hbody : body.under own (some head.id) = [] :=
            under_eq_nil (hb _ (.inl rfl)) fun id hid => hb id (.inr (.inl hid))
          rw [insertAt, under, under, if_pos rfl, hbody,
            ih fun id hid => hb id (.inr (.inr hid))]
          rfl

theorem under_insertAt_of_not_mem {b : Block} {parent own : Option String} {node : Node}
    {index : Nat} (hown : own ≠ parent) (hnode : ∀ id ∈ node.ids, some id ≠ parent) :
    (b.insertAt node index).under parent own = b.under parent own := by
  have hbelow : node.body.under parent (some node.head.id) = [] := by
    rw [node_ids] at hnode
    exact under_eq_nil (hnode _ (.head _)) fun id hid => hnode id (.tail _ hid)
  induction b generalizing index with
  | nil => simp [insertAt_nil, Node.toBlock, under, hbelow, hown]
  | cons head body next _ ih =>
      cases index with
      | zero =>
          rw [insertAt_zero, under, if_neg hown, hbelow]
          rfl
      | succ index => rw [insertAt, under, under, ih]

theorem under_insertAt_of_mem {b : Block} {parent own : Option String} {node : Node}
    {index : Nat} (hown : own ≠ parent) (hb : ∀ id ∈ b.ids, some id ≠ parent) :
    (b.insertAt node index).under parent own =
      node.body.under parent (some node.head.id) := by
  induction b generalizing index with
  | nil => simp [insertAt_nil, Node.toBlock, under, hown]
  | cons head body next _ ih =>
      cases index with
      | zero =>
          rw [insertAt_zero, under, if_neg hown, under_eq_nil hown hb]
          simp
      | succ index =>
          simp only [ids_cons, List.mem_cons, List.mem_append] at hb
          rw [insertAt, under, if_neg hown, ih fun id hid => hb id (.inr (.inr hid)),
            under_eq_nil (hb _ (.inl rfl)) fun id hid => hb id (.inr (.inl hid))]
          rfl

/-- Under its parent the node stands at the index. -/
theorem under_graft_parent {b : Block} {parent own : Option String} {node : Node} (index : Nat)
    (hnodup : b.ids.Nodup) (hown : ∀ id ∈ b.ids, some id ≠ own) (h : b.HasParent own parent)
    (hnode : ∀ id ∈ node.ids, some id ≠ parent) :
    (b.graft parent own node index).under parent own =
      (b.under parent own).take index ++ node.head :: (b.under parent own).drop index := by
  induction b generalizing own with
  | nil =>
      rcases h with rfl | ⟨_, hid, _⟩
      · rw [graft_own, under_insertAt_own hown hnode]
      · cases hid
  | cons head body next ihbody ihnext =>
      obtain ⟨hbody, _, hnodupBody, hnodupNext, _⟩ := nodup_ids_cons.mp hnodup
      have hownBody := ne_head_of_nodup hnodup
      have hownNext := ne_own_of_cons hown
      rcases h.cases hnodup hown with rfl | ⟨hne, hin, hout⟩ | ⟨hne, hout, hin⟩
      · rw [graft_own, under_insertAt_own hown hnode]
      · rw [graft, if_neg hne, graft_eq_self hout, under, under, if_neg hne,
          under_of_not_hasParent hout,
          ihbody hnodupBody hownBody hin]
        simp
      · rw [graft, if_neg hne, graft_eq_self hout, under, under, if_neg hne,
          under_of_not_hasParent hout,
          ihnext hnodupNext hownNext hin]
        simp

/-- Under the other parents of the block nothing changes. -/
theorem under_graft_of_not_mem {b : Block} {parent own other : Option String} {node : Node}
    (index : Nat) (hother : other ≠ parent) (hnode : ∀ id ∈ node.ids, some id ≠ other) :
    (b.graft parent own node index).under other own = b.under other own := by
  induction b generalizing own with
  | nil =>
      rw [graft]
      split
      · next heq =>
        exact under_insertAt_of_not_mem (fun h => hother (h.symm.trans heq)) hnode
      · rfl
  | cons head body next ihbody ihnext =>
      rw [graft]
      split
      · next heq =>
        exact under_insertAt_of_not_mem (fun h => hother (h.symm.trans heq)) hnode
      · rw [under, under, ihbody, ihnext]

/-- Under the statements of the node stands what stood there. -/
theorem under_graft_of_mem {b : Block} {parent own other : Option String} (node : Node)
    (index : Nat) (hnodup : b.ids.Nodup) (hown : ∀ id ∈ b.ids, some id ≠ own)
    (h : b.HasParent own parent) (hother : ¬ b.HasParent own other) :
    (b.graft parent own node index).under other own =
      node.body.under other (some node.head.id) := by
  induction b generalizing own with
  | nil =>
      rcases h with rfl | ⟨_, hid, _⟩
      · rw [graft_own]
        exact under_insertAt_of_mem (fun heq => hother (.inl heq)) (by simp)
      · cases hid
  | cons head body next ihbody ihnext =>
      obtain ⟨hbody, _, hnodupBody, hnodupNext, _⟩ := nodup_ids_cons.mp hnodup
      have hownBody := ne_head_of_nodup hnodup
      have hne : own ≠ other := fun heq => hother (.inl heq)
      have hids : ∀ id ∈ (cons head body next).ids, some id ≠ other := fun id hid heq =>
        hother (.inr ⟨id, hid, heq⟩)
      have hotherBody : ¬ body.HasParent (some head.id) other := by
        rintro (heq | ⟨id, hid, heq⟩)
        · exact hids head.id (by simp) heq
        · exact hids id (by simp [hid]) heq
      have hotherNext : ¬ next.HasParent own other := by
        rintro (heq | ⟨id, hid, heq⟩)
        · exact hne heq
        · exact hids id (by simp [hid]) heq
      rcases h.cases hnodup hown with rfl | ⟨hne', hin, hout⟩ | ⟨hne', hout, hin⟩
      · rw [graft_own]
        exact under_insertAt_of_mem hne hids
      · rw [graft, if_neg hne', graft_eq_self hout, under, if_neg hne,
          under_of_not_hasParent hotherNext,
          ihbody hnodupBody hownBody hin hotherBody]
        simp
      · rw [graft, if_neg hne', graft_eq_self hout, under, if_neg hne,
          under_of_not_hasParent hotherBody,
          ihnext hnodupNext (ne_own_of_cons hown) hin hotherNext]
        simp

/-! ### The node is found again and can be taken out again -/

theorem without_insertAt {b : Block} {node : Node} {index : Nat} (h : node.head.id ∉ b.ids) :
    (b.insertAt node index).without node.head.id = b := by
  induction b generalizing index with
  | nil => simp [insertAt_nil, Node.toBlock, without]
  | cons head body next _ ih =>
      cases index with
      | zero => rw [insertAt_zero, without, if_pos rfl]
      | succ index =>
          rw [ids_cons, List.mem_cons, List.mem_append, not_or, not_or] at h
          rw [insertAt, without, if_neg (Ne.symm h.1), ih h.2.2, without_eq_self h.2.1]

theorem without_graft {b : Block} {parent own : Option String} {node : Node} {index : Nat}
    (h : node.head.id ∉ b.ids) : (b.graft parent own node index).without node.head.id = b := by
  induction b generalizing own with
  | nil =>
      rw [graft]
      split
      · exact without_insertAt h
      · rfl
  | cons head body next ihbody ihnext =>
      rw [graft]
      split
      · exact without_insertAt h
      · rw [ids_cons, List.mem_cons, List.mem_append, not_or, not_or] at h
        rw [without, if_neg (Ne.symm h.1), ihbody h.2.1, ihnext h.2.2]

theorem find?_insertAt {b : Block} {node : Node} {index : Nat} (h : node.head.id ∉ b.ids) :
    (b.insertAt node index).find? node.head.id = some node := by
  induction b generalizing index with
  | nil => simp [insertAt_nil, Node.toBlock, find?]
  | cons head body next _ ih =>
      cases index with
      | zero => simp [insertAt_zero, find?]
      | succ index =>
          rw [ids_cons, List.mem_cons, List.mem_append, not_or, not_or] at h
          rw [insertAt, find?, if_neg (by simpa using Ne.symm h.1), ih h.2.2,
            find?_eq_none_iff.mpr h.2.1, Option.none_or]

theorem find?_graft {b : Block} {parent own : Option String} {node : Node} (index : Nat)
    (hnodup : b.ids.Nodup) (hown : ∀ id ∈ b.ids, some id ≠ own) (hparent : b.HasParent own parent)
    (h : node.head.id ∉ b.ids) :
    (b.graft parent own node index).find? node.head.id = some node := by
  induction b generalizing own with
  | nil =>
      rcases hparent with rfl | ⟨_, hid, _⟩
      · rw [graft_own]
        exact find?_insertAt h
      · cases hid
  | cons head body next ihbody ihnext =>
      obtain ⟨hbody, _, hnodupBody, hnodupNext, _⟩ := nodup_ids_cons.mp hnodup
      have hownBody := ne_head_of_nodup hnodup
      have hids := h
      rw [ids_cons, List.mem_cons, List.mem_append, not_or, not_or] at hids
      have hne : ¬ (head.id == node.head.id) = true := by simpa using Ne.symm hids.1
      rcases hparent.cases hnodup hown with rfl | ⟨hne', hin, hout⟩ | ⟨hne', hout, hin⟩
      · rw [graft_own]
        exact find?_insertAt h
      · rw [graft, if_neg hne', find?, if_neg hne, ihbody hnodupBody hownBody hin hids.2.1,
          Option.some_or]
      · rw [graft, if_neg hne', graft_eq_self hout, find?, if_neg hne,
          find?_eq_none_iff.mpr hids.2.1, Option.none_or,
          ihnext hnodupNext (ne_own_of_cons hown) hin hids.2.2]

/-- The item of the node names the parent, and it is one level below the parent's item. -/
theorem exists_item_graft {b : Block} {parent own : Option String} {node : Node}
    {index depth depth' start : Nat} (hnodup : b.ids.Nodup) (hown : ∀ id ∈ b.ids, some id ≠ own)
    (h : own = parent ∧ depth' = depth ∨
      ∃ item ∈ b.outlineFrom own depth start, some item.id = parent ∧
        depth' = item.depth + 1) :
    ∃ item ∈ (b.graft parent own node index).outlineFrom own depth start,
      item.id = node.head.id ∧ item.parent = parent ∧ item.depth = depth' := by
  have insertAt (own : Option String) (depth start index : Nat) (b : Block) :
      ∃ item ∈ (b.insertAt node index).outlineFrom own depth start,
        item.id = node.head.id ∧ item.parent = own ∧ item.depth = depth := by
    induction b generalizing index start with
    | nil =>
        rw [insertAt_nil]
        exact ⟨_, .head _, rfl, rfl, rfl⟩
    | cons head body next _ ih =>
        cases index with
        | zero =>
            rw [insertAt_zero]
            exact ⟨_, .head _, rfl, rfl, rfl⟩
        | succ index =>
            obtain ⟨item, hitem, hspec⟩ := ih (start + 1) index
            exact ⟨item, .tail _ (List.mem_append_right _ hitem), hspec⟩
  induction b generalizing own depth start with
  | nil =>
      rcases h with ⟨rfl, rfl⟩ | ⟨_, hitem, _⟩
      · rw [graft_own]
        exact insertAt ..
      · cases hitem
  | cons head body next ihbody ihnext =>
      obtain ⟨hbody, _, hnodupBody, hnodupNext, _⟩ := nodup_ids_cons.mp hnodup
      rcases h with ⟨rfl, rfl⟩ | ⟨item, hitem, hid, rfl⟩
      · rw [graft_own]
        exact insertAt ..
      · have hmem : item.id ∈ (cons head body next).ids := by
          rw [← map_id_outlineFrom _ own depth start]
          exact List.mem_map_of_mem hitem
        have hne : own ≠ parent := by
          rw [← hid]
          exact (hown _ hmem).symm
        rw [graft, if_neg hne, outlineFrom]
        rw [outlineFrom, List.mem_cons, List.mem_append] at hitem
        rcases hitem with rfl | hitem | hitem
        · obtain ⟨found, hfound, hspec⟩ :
              ∃ found ∈ (body.graft parent (some head.id) node index).outlineFrom (some head.id)
                (depth + 1) 0, found.id = node.head.id ∧ found.parent = parent ∧
                  found.depth = depth + 1 :=
            ihbody hnodupBody (ne_head_of_nodup hnodup) (.inl ⟨hid, rfl⟩)
          exact ⟨found, .tail _ (List.mem_append_left _ hfound), hspec⟩
        · obtain ⟨found, hfound, hspec⟩ := ihbody hnodupBody (ne_head_of_nodup hnodup)
            (.inr ⟨item, hitem, hid, rfl⟩)
          exact ⟨found, .tail _ (List.mem_append_left _ hfound), hspec⟩
        · obtain ⟨found, hfound, hspec⟩ := ihnext hnodupNext
            (ne_own_of_cons hown) (.inr ⟨item, hitem, hid, rfl⟩)
          exact ⟨found, .tail _ (List.mem_append_right _ hfound), hspec⟩

/-- A block is what is left of it without a statement, with that statement's node put in. -/
theorem exists_eq_graft {b : Block} {own : Option String} {id : String} {node : Node}
    (hnodup : b.ids.Nodup) (hown : ∀ id ∈ b.ids, some id ≠ own) (h : b.find? id = some node) :
    ∃ parent index, (b.without id).HasParent own parent ∧
      b = (b.without id).graft parent own node index := by
  induction b generalizing own with
  | nil => cases h
  | cons head body next ihbody ihnext =>
      obtain ⟨hbody, hnext, hnodupBody, hnodupNext, hdisjoint⟩ := nodup_ids_cons.mp hnodup
      rw [find?] at h
      rw [without]
      split at h
      · next hid =>
        cases h
        refine ⟨own, 0, .inl rfl, ?_⟩
        rw [if_pos (eq_of_beq hid), graft_own, insertAt_zero]
      · next hid =>
        rw [if_neg (by simpa using hid)]
        have hownBody := ne_head_of_nodup hnodup
        rcases Option.or_eq_some_iff.mp h with h | ⟨hnone, h⟩
        · obtain ⟨parent, index, hparent, hgraft⟩ := ihbody hnodupBody hownBody h
          have hmem : id ∈ body.ids := find?_isSome_iff.mp (by rw [h]; rfl)
          obtain ⟨x, rfl, hx⟩ : ∃ x, parent = some x ∧ (x = head.id ∨ x ∈ body.ids) := by
            rcases hparent with rfl | ⟨x, hx, rfl⟩
            · exact ⟨_, rfl, .inl rfl⟩
            · exact ⟨x, rfl, .inr ((ids_without_sublist body id).subset hx)⟩
          have hne : own ≠ some x := by
            rcases hx with rfl | hx
            · exact (hown _ (by simp)).symm
            · exact (hown _ (by simp [hx])).symm
          have hout : ¬ next.HasParent own (some x) := by
            rintro (heq | ⟨y, hy, heq⟩)
            · exact hne heq
            · cases heq
              rcases hx with rfl | hx
              · exact hnext hy
              · exact hdisjoint x hx hy
          refine ⟨some x, index, .inr ?_, ?_⟩
          · rcases hparent with heq | ⟨y, hy, heq⟩
            · exact ⟨head.id, by simp, heq⟩
            · exact ⟨y, by simp [hy], heq⟩
          · rw [without_eq_self (hdisjoint id hmem), graft, if_neg hne, ← hgraft,
              graft_eq_self hout]
        · obtain ⟨parent, index, hparent, hgraft⟩ :=
            ihnext hnodupNext (ne_own_of_cons hown) h
          rw [without_eq_self (find?_eq_none_iff.mp hnone)]
          rcases hparent with rfl | ⟨x, hx, rfl⟩
          · refine ⟨own, index + 1, .inl rfl, ?_⟩
            rw [graft_own] at hgraft ⊢
            rw [insertAt, ← hgraft]
          · have hx' : x ∈ next.ids := (ids_without_sublist next id).subset hx
            have hout : ¬ body.HasParent (some head.id) (some x) := by
              rintro (heq | ⟨y, hy, heq⟩)
              · cases heq
                exact hnext hx'
              · cases heq
                exact hdisjoint x hy hx'
            refine ⟨some x, index, .inr ⟨x, by simp [hx], rfl⟩, ?_⟩
            rw [graft, if_neg (hown x (by simp [hx'])).symm, graft_eq_self hout, ← hgraft]

theorem statements_perm_without {b : Block} {id : String} {node : Node} (hnodup : b.ids.Nodup)
    (h : b.find? id = some node) :
    b.statements.Perm (node.toBlock.statements ++ (b.without id).statements) := by
  obtain ⟨parent, index, hparent, hgraft⟩ := exists_eq_graft hnodup b.ne_none h
  have hperm := statements_graft node index ((ids_without_sublist b id).nodup hnodup)
    (ne_none _) hparent
  rwa [← hgraft] at hperm

theorem ids_perm_without {b : Block} {id : String} {node : Node} (hnodup : b.ids.Nodup)
    (h : b.find? id = some node) : b.ids.Perm (node.ids ++ (b.without id).ids) := by
  have hperm := (statements_perm_without hnodup h).map Statement.id
  rwa [List.map_append] at hperm

/-- A node that is taken out shares no identifier with what is left. -/
theorem ids_disjoint_of_find? {b : Block} {id : String} {node : Node} (hnodup : b.ids.Nodup)
    (h : b.find? id = some node) : node.head.id = id ∧ node.ids.Nodup ∧
      (b.without id).ids.Nodup ∧ ∀ other ∈ node.ids, other ∉ (b.without id).ids := by
  have happend := (ids_perm_without hnodup h).nodup_iff.mp hnodup
  obtain ⟨hnode, hrest, hdisjoint⟩ := List.nodup_append.mp happend
  exact ⟨(find?_spec h).1, hnode, hrest, fun other hid hid' => hdisjoint other hid other hid' rfl⟩

end Block

end BlockCode
