/- # Places in a program

A place in a program is a parent, or the lack of one, and a number of statements under it that come
first. Putting a node in at a place makes it the child of that number. In a program with distinct
identifiers every node stands at one place, and what is left without it, with the node put in there
again, is the program.

Everything outside a node keeps its parent and its depth when the node is taken out. Within it,
depths are counted from its first statement, so they shift together when it moves.
-/

import BlockCode.Proofs.Program.Preorder
import BlockCode.Proofs.Program.Visible

namespace BlockCode

namespace Block

/-! ## Nodes and children -/

/-- All nodes of a block, each before those nested under it. -/
def preorder : Block → List Node
  | .nil => []
  | .cons head body next => ⟨head, body⟩ :: (body.preorder ++ next.preorder)

/-- The nodes directly under the parent, or the roots. Of several statements with the identifier the
first one counts. -/
def children? (program : Block) : Option String → Option (List Node)
  | none => some program.nodes
  | some id => (program.preorder.find? fun node => node.head.id == id).map fun node =>
      node.body.nodes

/-- The depth of what stands directly under the parent, or of the roots. -/
def depthUnder? (program : Block) : Option String → Option Nat
  | none => some 0
  | some id => (program.depthOf id).toOption.map (· + 1)

theorem find?_eq_find?_preorder (b : Block) (id : String) :
    b.find? id = b.preorder.find? fun node => node.head.id == id := by
  induction b with
  | nil => rfl
  | cons head body next ihbody ihnext =>
      rw [find?, preorder, List.find?_cons, List.find?_append, ihbody, ihnext]
      cases head.id == id <;> rfl

theorem children?_some (b : Block) (id : String) :
    b.children? (some id) = (b.find? id).map fun node => node.body.nodes := by
  rw [children?, find?_eq_find?_preorder]

theorem id_mem_of_find? {b : Block} {id : String} {node : Node} (h : b.find? id = some node) :
    id ∈ b.ids :=
  find?_isSome_iff.mp (Option.isSome_of_eq_some h)

theorem children?_isSome_iff {b : Block} {parent : Option String} :
    (b.children? parent).isSome ↔ b.HasParent none parent := by
  cases parent with
  | none => exact iff_of_true rfl (.inl rfl)
  | some id =>
      rw [children?_some, Option.isSome_map, find?_isSome_iff]
      constructor
      · intro hid
        exact .inr ⟨id, hid, rfl⟩
      · rintro (heq | ⟨_, hid, ⟨⟩⟩)
        · cases heq
        · exact hid

theorem hasParent_of_children? {b : Block} {parent : Option String} {children : List Node}
    (h : b.children? parent = some children) : b.HasParent none parent :=
  children?_isSome_iff.mp (Option.isSome_of_eq_some h)

/-- A parent that has children is in the program. -/
theorem mem_ids_of_children? {b : Block} {parent : Option String} {children : List Node}
    (h : b.children? parent = some children) : ∀ id ∈ parent, id ∈ b.ids := by
  rintro id rfl
  rcases hasParent_of_children? h with heq | ⟨_, hid, ⟨⟩⟩
  · cases heq
  · exact hid

theorem length_nodes (b : Block) : b.nodes.length = b.width := by
  induction b with
  | nil => rfl
  | cons head body next _ ih =>
      rw [nodes, List.length_cons, ih, width, Nat.add_comm]

theorem nodes_insertAt {b : Block} {node : Node} {index : Nat} (h : index ≤ b.nodes.length) :
    (b.insertAt node index).nodes = b.nodes.take index ++ node :: b.nodes.drop index := by
  induction b generalizing index with
  | nil =>
      obtain rfl : index = 0 := by simpa [nodes] using h
      rfl
  | cons head body next _ ih =>
      cases index with
      | zero => rfl
      | succ index =>
          rw [nodes, List.length_cons] at h
          rw [insertAt, nodes, ih (by omega)]
          rfl

theorem map_id_preorder (b : Block) : (b.preorder.map fun node => node.head.id) = b.ids := by
  induction b with
  | nil => rfl
  | cons head body next ihbody ihnext =>
      rw [preorder, List.map_cons, List.map_append, ihbody, ihnext, ids_cons]

theorem nodes_subset_preorder (b : Block) : b.nodes ⊆ b.preorder := by
  induction b with
  | nil => exact List.Subset.refl _
  | cons head body next _ ih =>
      rw [nodes, preorder]
      exact List.cons_subset_cons _ (List.subset_append_of_subset_right _ ih)

theorem preorder_body_subset {b : Block} {found : Node} (h : found ∈ b.preorder) :
    found.body.preorder ⊆ b.preorder := by
  induction b with
  | nil => cases h
  | cons head body next ihbody ihnext =>
      rw [preorder, List.mem_cons, List.mem_append] at h
      rw [preorder]
      apply List.subset_cons_of_subset
      rcases h with rfl | h | h
      · exact List.subset_append_left _ _
      · exact List.subset_append_of_subset_left _ (ihbody h)
      · exact List.subset_append_of_subset_right _ (ihnext h)

theorem mem_preorder_of_find? {b : Block} {id : String} {found : Node}
    (h : b.find? id = some found) : found ∈ b.preorder := by
  rw [find?_eq_find?_preorder] at h
  exact List.mem_of_find?_eq_some h

/-- Every node of a program with distinct identifiers is found by its own. -/
theorem find?_of_mem_preorder {b : Block} {node : Node} (hnodup : b.ids.Nodup)
    (h : node ∈ b.preorder) : b.find? node.head.id = some node := by
  have hmem := List.mem_map_of_mem (f := fun other : Node => other.head.id) h
  rw [map_id_preorder] at hmem
  obtain ⟨found, hfound⟩ := Option.isSome_iff_exists.mp (find?_isSome_iff.mpr hmem)
  rw [← map_id_preorder] at hnodup
  rw [hfound, List.inj_on_of_nodup_map hnodup (mem_preorder_of_find? hfound) h
    (find?_spec hfound).1]

theorem find?_of_mem_nodes {b : Block} {node : Node} (hnodup : b.ids.Nodup) (h : node ∈ b.nodes) :
    b.find? node.head.id = some node :=
  find?_of_mem_preorder hnodup (nodes_subset_preorder b h)

/-- What is nested under a node that is found is found too. -/
theorem find?_of_mem_body {b : Block} {id : String} {found node : Node} (hnodup : b.ids.Nodup)
    (hfound : b.find? id = some found) (h : node ∈ found.body.nodes) :
    b.find? node.head.id = some node :=
  find?_of_mem_preorder hnodup
    (preorder_body_subset (mem_preorder_of_find? hfound) (nodes_subset_preorder _ h))

theorem find?_of_children? {b : Block} {parent : Option String} {children : List Node} {node : Node}
    (hnodup : b.ids.Nodup) (hchildren : b.children? parent = some children) (h : node ∈ children) :
    b.find? node.head.id = some node := by
  cases parent with
  | none =>
      cases hchildren
      exact find?_of_mem_nodes hnodup h
  | some id =>
      rw [children?_some] at hchildren
      obtain ⟨found, hfound, rfl⟩ := Option.map_eq_some_iff.mp hchildren
      exact find?_of_mem_body hnodup hfound h

/-! ## Putting a node in -/

/-- The program with a node put in front of the child at the index under the parent. -/
def putIn (program : Block) (parent : Option String) (index : Nat) (node : Node) : Block :=
  match parent with
  | none => program.insertAt node index
  | some id =>
    program.updateFirst id fun found => { found with body := found.body.insertAt node index }

theorem find?_updateFirst {b : Block} {id : String} {node : Node} {f : Node → Node}
    (h : b.find? id = some node) (hid : (f node).head.id = id) :
    (b.updateFirst id f).find? id = some (f node) := by
  induction b with
  | nil => cases h
  | cons head body next ihbody ihnext =>
      rw [find?] at h
      rw [updateFirst]
      split at h
      · next heq =>
        cases h
        rw [if_pos heq, find?, if_pos (by simpa using hid)]
      · next hne =>
        rw [if_neg hne]
        rcases Option.or_eq_some_iff.mp h with h | ⟨hnone, h⟩
        · rw [h, if_pos (Option.isSome_some), find?, if_neg hne, ihbody h, Option.some_or]
        · rw [hnone, if_neg (by simp), find?, if_neg hne, hnone, Option.none_or, ihnext h]

/-- The node becomes the child at the index. -/
theorem children?_putIn {b : Block} {parent : Option String} {index : Nat} {node : Node}
    {children : List Node} (hchildren : b.children? parent = some children)
    (hindex : index ≤ children.length) :
    (b.putIn parent index node).children? parent =
      some (children.take index ++ node :: children.drop index) := by
  cases parent with
  | none =>
      cases hchildren
      exact congrArg some (nodes_insertAt hindex)
  | some id =>
      rw [children?_some] at hchildren ⊢
      obtain ⟨found, hfound, rfl⟩ := Option.map_eq_some_iff.mp hchildren
      rw [putIn, find?_updateFirst hfound (find?_spec hfound).1, Option.map_some,
        nodes_insertAt hindex]

/-- A graft does not reach a part that its parent is not in. -/
theorem graft_eq_self_of_notMem {b : Block} {own : Option String} {id : String} {node : Node}
    {index : Nat} (hown : own ≠ some id) (hid : id ∉ b.ids) :
    b.graft (some id) own node index = b := by
  apply graft_eq_self
  rintro (heq | ⟨_, hmem, ⟨⟩⟩)
  · exact hown heq
  · exact hid hmem

theorem updateFirst_eq_graft {b : Block} {own : Option String} {id : String} (index : Nat)
    (node : Node) (hnodup : b.ids.Nodup) (hown : ∀ id ∈ b.ids, some id ≠ own) (hid : id ∈ b.ids) :
    (b.updateFirst id fun found => { found with body := found.body.insertAt node index }) =
      b.graft (some id) own node index := by
  induction b generalizing own with
  | nil => simp at hid
  | cons head body next ihbody ihnext =>
      obtain ⟨hbody, hnext, hnodupBody, hnodupNext, hdisjoint⟩ := nodup_ids_cons.mp hnodup
      have hne : own ≠ some id := (hown id hid).symm
      rw [updateFirst, graft, if_neg hne]
      by_cases heq : head.id = id
      · subst heq
        rw [if_pos (by simp), graft_own, graft_eq_self_of_notMem hne hnext]
      · rw [if_neg (by simpa using heq)]
        rw [ids_cons, List.mem_cons, List.mem_append] at hid
        have hne' : some head.id ≠ some id := fun h => heq (Option.some.inj h)
        by_cases hmem : id ∈ body.ids
        · rw [if_pos (find?_isSome_iff.mpr hmem), graft_eq_self_of_notMem hne (hdisjoint id hmem),
            ihbody hnodupBody (ne_head_of_nodup hnodup) hmem]
        · rw [if_neg fun h => hmem (find?_isSome_iff.mp h), graft_eq_self_of_notMem hne' hmem,
            ihnext hnodupNext (ne_own_of_cons hown)
              ((hid.resolve_left (Ne.symm heq)).resolve_left hmem)]

/-- With distinct identifiers, putting a node in is grafting it on. -/
theorem putIn_eq_graft {b : Block} {parent : Option String} (index : Nat) (node : Node)
    (hnodup : b.ids.Nodup) (hparent : b.HasParent none parent) :
    b.putIn parent index node = b.graft parent none node index := by
  cases parent with
  | none => exact (graft_own none node index b).symm
  | some id =>
      rcases hparent with heq | ⟨_, hid, ⟨⟩⟩
      · cases heq
      · exact updateFirst_eq_graft index node hnodup b.ne_none hid

/-! ## What is left without a node -/

/-- What is found where the identifier is not has nothing of it nested. -/
theorem find?_eq_without_of_notMem {b : Block} {id other : String} {found : Node}
    (hid : id ∉ b.ids) (hfound : b.find? other = some found) :
    b.find? other = some ⟨found.head, found.body.without id⟩ := by
  have hbody : id ∉ found.body.ids := by
    intro hmem
    apply hid
    apply (find?_spec hfound).2.subset
    rw [node_ids]
    exact .tail _ hmem
  rw [without_eq_self hbody, hfound]

/-- The other nodes are still there, without the node where it is nested under them. -/
theorem find?_without {b : Block} {id other : String} {node found : Node} (hnodup : b.ids.Nodup)
    (hnode : b.find? id = some node) (hfound : b.find? other = some found)
    (hout : other ∉ node.ids) :
    (b.without id).find? other = some ⟨found.head, found.body.without id⟩ := by
  induction b with
  | nil => cases hfound
  | cons head body next ihbody ihnext =>
      obtain ⟨_, hnext, hnodupBody, hnodupNext, hdisjoint⟩ := nodup_ids_cons.mp hnodup
      rw [find?] at hnode hfound
      rw [without]
      split at hnode
      · next heq =>
        cases hnode
        rw [node_ids, List.mem_cons, not_or] at hout
        rw [if_neg (by simpa using Ne.symm hout.1), find?_eq_none_iff.mpr hout.2,
          Option.none_or] at hfound
        rw [if_pos (eq_of_beq heq)]
        exact find?_eq_without_of_notMem (eq_of_beq heq ▸ hnext) hfound
      · next hne =>
        rw [if_neg (by simpa using hne), find?]
        split at hfound
        · next heq =>
          cases hfound
          rw [if_pos heq]
        · next hne' =>
          rw [if_neg hne']
          rcases Option.or_eq_some_iff.mp hnode with hnode | ⟨hnone, hnode⟩
          · have hmem : id ∈ body.ids := id_mem_of_find? hnode
            rcases Option.or_eq_some_iff.mp hfound with hfound | ⟨hnone, hfound⟩
            · rw [ihbody hnodupBody hnode hfound, Option.some_or]
            · have hbody : other ∉ (body.without id).ids := fun h =>
                find?_eq_none_iff.mp hnone ((ids_without_sublist body id).subset h)
              rw [find?_eq_none_iff.mpr hbody, Option.none_or,
                without_eq_self (hdisjoint id hmem),
                find?_eq_without_of_notMem (hdisjoint id hmem) hfound]
          · have hid := find?_eq_none_iff.mp hnone
            rw [without_eq_self hid]
            rcases Option.or_eq_some_iff.mp hfound with hfound | ⟨hnone, hfound⟩
            · rw [find?_eq_without_of_notMem hid hfound, Option.some_or]
            · rw [hnone, Option.none_or, ihnext hnodupNext hnode hfound]

/-- A block loses as many of its own nodes as have the identifier. -/
theorem length_nodes_without {b : Block} {id : String} (hnodup : b.ids.Nodup) :
    (b.without id).nodes.length = (b.nodes.filter fun child => child.head.id != id).length := by
  induction b with
  | nil => rfl
  | cons head body next _ ih =>
      obtain ⟨_, hnext, _, hnodupNext, _⟩ := nodup_ids_cons.mp hnodup
      rw [without, nodes]
      by_cases heq : head.id = id
      · rw [if_pos heq, List.filter_cons_of_neg (by simp [heq]), List.filter_eq_self.mpr]
        intro child hchild
        rw [bne_iff_ne]
        rintro rfl
        exact hnext (heq ▸ id_mem_of_mem_nodes hchild)
      · rw [if_neg heq, nodes, List.filter_cons_of_pos (by simpa using heq), List.length_cons,
          List.length_cons, ih hnodupNext]

/-- A parent outside the node loses as many children as have the identifier. -/
theorem exists_children?_without {b : Block} {id : String} {node : Node} {parent : Option String}
    {children : List Node} (hnodup : b.ids.Nodup) (hnode : b.find? id = some node)
    (hchildren : b.children? parent = some children) (hout : ∀ other ∈ parent, other ∉ node.ids) :
    ∃ left, (b.without id).children? parent = some left ∧
      left.length = (children.filter fun child => child.head.id != id).length := by
  cases parent with
  | none =>
      cases hchildren
      exact ⟨_, rfl, length_nodes_without hnodup⟩
  | some other =>
      rw [children?_some] at hchildren ⊢
      obtain ⟨found, hfound, rfl⟩ := Option.map_eq_some_iff.mp hchildren
      rw [find?_without hnodup hnode hfound (hout other rfl)]
      refine ⟨_, rfl, length_nodes_without ?_⟩
      have hsub := (find?_spec hfound).2.nodup hnodup
      rw [node_ids] at hsub
      exact (List.nodup_cons.mp hsub).2

/-- A parent is outside of what is nested under it. -/
theorem notMem_ids_of_children? {b : Block} {parent : Option String} {children : List Node}
    {node : Node} (hnodup : b.ids.Nodup) (hchildren : b.children? parent = some children)
    (h : node ∈ children) : ∀ id ∈ parent, id ∉ node.ids := by
  rintro id rfl hid
  rw [children?_some] at hchildren
  obtain ⟨found, hfound, rfl⟩ := Option.map_eq_some_iff.mp hchildren
  obtain ⟨rfl, hsub⟩ := find?_spec hfound
  have hnodupFound := hsub.nodup hnodup
  rw [node_ids, List.nodup_cons] at hnodupFound
  have hnode := find?_of_mem_nodes hnodupFound.2 h
  exact hnodupFound.1 ((find?_spec hnode).2.subset hid)

theorem ids_nodes_sublist (b : Block) : (b.nodes.map fun child => child.head.id).Sublist b.ids := by
  induction b with
  | nil => exact .refl _
  | cons head body next _ ih =>
      rw [nodes, List.map_cons, ids_cons]
      exact (ih.trans (List.sublist_append_right _ _)).cons_cons _

theorem nodup_ids_children? {b : Block} {parent : Option String} {children : List Node}
    (hnodup : b.ids.Nodup) (hchildren : b.children? parent = some children) :
    (children.map fun child => child.head.id).Nodup := by
  cases parent with
  | none =>
      cases hchildren
      exact (ids_nodes_sublist b).nodup hnodup
  | some id =>
      rw [children?_some] at hchildren
      obtain ⟨found, hfound, rfl⟩ := Option.map_eq_some_iff.mp hchildren
      have hsub := (find?_spec hfound).2
      rw [node_ids] at hsub
      exact (((ids_nodes_sublist found.body).cons _).trans hsub).nodup hnodup

/-- Where a child stood there is still a place when it is taken out. -/
theorem exists_le_length_children?_without {b : Block} {parent : Option String}
    {children : List Node} {index : Nat} {node : Node} (hnodup : b.ids.Nodup)
    (hchildren : b.children? parent = some children) (h : children[index]? = some node) :
    ∃ left, (b.without node.head.id).children? parent = some left ∧ index ≤ left.length := by
  have hmem := List.mem_of_getElem? h
  obtain ⟨left, hleft, hlength⟩ := exists_children?_without hnodup
    (find?_of_children? hnodup hchildren hmem) hchildren
    (notMem_ids_of_children? hnodup hchildren hmem)
  have hfilter : (children.filter fun child => child.head.id != node.head.id).length =
      children.length - 1 := by
    have hids := nodup_ids_children? hnodup hchildren
    calc
      _ = ((children.map fun child => child.head.id).filter (· != node.head.id)).length := by
        rw [List.filter_map, List.length_map]
        rfl
      _ = ((children.map fun child => child.head.id).erase node.head.id).length := by
        rw [hids.erase_eq_filter]
      _ = children.length - 1 := by
        rw [List.length_erase_of_mem (List.mem_map_of_mem hmem), List.length_map]
  obtain ⟨hlt, _⟩ := List.getElem?_eq_some_iff.mp h
  exact ⟨left, hleft, by omega⟩

theorem insertAt_without {b : Block} {index : Nat} {node : Node} (hnodup : b.ids.Nodup)
    (h : b.nodes[index]? = some node) : (b.without node.head.id).insertAt node index = b := by
  induction b generalizing index with
  | nil => simp [nodes] at h
  | cons head body next _ ih =>
      obtain ⟨_, hnext, _, hnodupNext, hdisjoint⟩ := nodup_ids_cons.mp hnodup
      cases index with
      | zero =>
          cases h
          rw [without, if_pos rfl, insertAt_zero]
      | succ index =>
          have hmem : node.head.id ∈ next.ids := id_mem_of_mem_nodes (List.mem_of_getElem? h)
          rw [without, if_neg (ne_of_mem_of_not_mem hmem hnext).symm, insertAt, ih hnodupNext h,
            without_eq_self fun hid => hdisjoint _ hid hmem]

/-- Putting a child in again where it stood gives the program. -/
theorem graft_without {b : Block} {own parent : Option String} {index : Nat} {node : Node}
    (hnodup : b.ids.Nodup) (hown : ∀ id ∈ b.ids, some id ≠ own)
    (h : own = parent ∧ b.nodes[index]? = some node ∨
      ∃ found, b.find? found.head.id = some found ∧ some found.head.id = parent ∧
        found.body.nodes[index]? = some node) :
    (b.without node.head.id).graft parent own node index = b := by
  induction b generalizing own with
  | nil =>
      rcases h with ⟨_, h⟩ | ⟨_, h, _⟩
      · simp [nodes] at h
      · cases h
  | cons head body next ihbody ihnext =>
      obtain ⟨hbody, hnext, hnodupBody, hnodupNext, hdisjoint⟩ := nodup_ids_cons.mp hnodup
      rcases h with ⟨rfl, h⟩ | ⟨found, hfound, rfl, h⟩
      · rw [graft_own, insertAt_without hnodup h]
      · have hparent : found.head.id ∈ (cons head body next).ids := id_mem_of_find? hfound
        have hne : own ≠ some found.head.id := (hown _ hparent).symm
        have hchild := List.mem_of_getElem? h
        have hinside {b : Block} (hnodup : b.ids.Nodup) (h : b.find? found.head.id = some found) :
            node.head.id ∈ b.ids :=
          id_mem_of_find? (find?_of_mem_body hnodup h hchild)
        rw [find?] at hfound
        split at hfound
        · cases hfound
          have hmem := id_mem_of_mem_nodes hchild
          rw [without, if_neg (ne_of_mem_of_not_mem hmem hbody).symm, graft, if_neg hne, graft_own,
            insertAt_without hnodupBody h, without_eq_self (hdisjoint _ hmem),
            graft_eq_self_of_notMem hne hnext]
        · next hid =>
          have hne' : some head.id ≠ some found.head.id := fun heq => hid (by simpa using heq)
          rcases Option.or_eq_some_iff.mp hfound with hfound | ⟨hnone, hfound⟩
          · have hmem := hinside hnodupBody hfound
            have hmem' : found.head.id ∈ body.ids := id_mem_of_find? hfound
            rw [without, if_neg (ne_of_mem_of_not_mem hmem hbody).symm, graft, if_neg hne,
              ihbody hnodupBody (ne_head_of_nodup hnodup) (.inr ⟨found, hfound, rfl, h⟩),
              without_eq_self (hdisjoint _ hmem),
              graft_eq_self_of_notMem hne (hdisjoint _ hmem')]
          · have hmem := hinside hnodupNext hfound
            have hout : node.head.id ∉ body.ids := fun hid => hdisjoint _ hid hmem
            rw [without, if_neg (ne_of_mem_of_not_mem hmem hnext).symm, graft, if_neg hne,
              ihnext hnodupNext (ne_own_of_cons hown) (.inr ⟨found, hfound, rfl, h⟩),
              without_eq_self hout, graft_eq_self_of_notMem hne' (find?_eq_none_iff.mp hnone)]

theorem putIn_without {program : Block} {parent : Option String} {children : List Node}
    {index : Nat} {node : Node} (hnodup : program.ids.Nodup)
    (hchildren : program.children? parent = some children) (h : children[index]? = some node)
    (hparent : (program.without node.head.id).HasParent none parent) :
    (program.without node.head.id).putIn parent index node = program := by
  rw [putIn_eq_graft index node ((ids_without_sublist ..).nodup hnodup) hparent]
  apply graft_without hnodup program.ne_none
  cases parent with
  | none =>
      cases hchildren
      exact .inl ⟨rfl, h⟩
  | some id =>
      rw [children?_some] at hchildren
      obtain ⟨found, hfound, rfl⟩ := Option.map_eq_some_iff.mp hchildren
      obtain rfl := (find?_spec hfound).1
      exact .inr ⟨found, hfound, rfl, h⟩

/-! ## Depths -/

theorem depthOf_eq_ok_iff {b : Block} {id : String} {depth : Nat} (hnodup : b.ids.Nodup) :
    b.depthOf id = .ok depth ↔
      ∃ item ∈ b.entriesFrom none 0, item.id = id ∧ item.depth = depth := by
  rw [depthOf, ← map_unindexed_outlineFrom b none 0 0]
  constructor
  · intro h
    split at h
    · next item hitem =>
      cases h
      have hid : item.id = id := by simpa using List.find?_some hitem
      exact ⟨item.unindexed, List.mem_map_of_mem (List.mem_of_find?_eq_some hitem), hid, rfl⟩
    · cases h
  · rintro ⟨_, hmem, rfl, rfl⟩
    obtain ⟨item, hitem, rfl⟩ := List.mem_map.mp hmem
    have hfind := Outline.find?_id (nodup_outline hnodup) hitem
    rw [show item.unindexed.id = item.id from rfl, hfind]
    rfl

theorem depthUnder?_eq_some_iff_depthOf {b : Block} {parent : Option String} {depth : Nat} :
    b.depthUnder? parent = some depth ↔ parent = none ∧ depth = 0 ∨
      ∃ id above, parent = some id ∧ b.depthOf id = .ok above ∧ depth = above + 1 := by
  cases parent with
  | none => simp [depthUnder?, eq_comm]
  | some id =>
      cases hdepth : b.depthOf id with
      | error e => simp [depthUnder?, hdepth, Except.toOption]
      | ok above => simp [depthUnder?, hdepth, Except.toOption, eq_comm]

theorem depthUnder?_eq_some_iff {b : Block} {parent : Option String} {depth : Nat}
    (hnodup : b.ids.Nodup) :
    b.depthUnder? parent = some depth ↔ none = parent ∧ depth = 0 ∨
      ∃ item ∈ b.entriesFrom none 0, some item.id = parent ∧ depth = item.depth + 1 := by
  rw [depthUnder?_eq_some_iff_depthOf, eq_comm (a := none)]
  simp only [depthOf_eq_ok_iff hnodup]
  refine or_congr_right ⟨?_, ?_⟩
  · rintro ⟨_, _, rfl, ⟨item, hitem, rfl, rfl⟩, rfl⟩
    exact ⟨item, hitem, rfl, rfl⟩
  · rintro ⟨item, hitem, rfl, rfl⟩
    exact ⟨_, _, rfl, ⟨item, hitem, rfl, rfl⟩, rfl⟩

theorem entriesFrom_toBlock (node : Node) (own : Option String) (depth : Nat) :
    node.toBlock.entriesFrom own depth =
      ⟨node.head, own, depth, 0⟩ :: node.body.entriesFrom (some node.head.id) (depth + 1) := by
  rw [Node.toBlock, entriesFrom, entriesFrom, List.append_nil]

/-- The entries of a node stand together, and taking it out leaves the others as they are. -/
theorem exists_entriesFrom_eq {b : Block} {id : String} {node : Node} (own : Option String)
    (depth : Nat) (hnodup : b.ids.Nodup) (h : b.find? id = some node) :
    ∃ before behind parent level,
      b.entriesFrom own depth = before ++ node.toBlock.entriesFrom parent level ++ behind ∧
        (b.without id).entriesFrom own depth = before ++ behind := by
  induction b generalizing own depth with
  | nil => cases h
  | cons head body next ihbody ihnext =>
      obtain ⟨_, _, hnodupBody, hnodupNext, hdisjoint⟩ := nodup_ids_cons.mp hnodup
      rw [find?] at h
      rw [entriesFrom, without]
      split at h
      · next heq =>
        cases h
        rw [if_pos (eq_of_beq heq)]
        exact ⟨[], next.entriesFrom own depth, own, depth, by rw [entriesFrom_toBlock]; rfl, rfl⟩
      · next hne =>
        rw [if_neg (by simpa using hne), entriesFrom]
        rcases Option.or_eq_some_iff.mp h with h | ⟨hnone, h⟩
        · obtain ⟨before, behind, parent, level, hwhole, hleft⟩ :=
            ihbody (some head.id) (depth + 1) hnodupBody h
          have hmem : id ∈ body.ids := id_mem_of_find? h
          refine ⟨⟨head, own, depth, 0⟩ :: before, behind ++ next.entriesFrom own depth, parent,
            level, ?_, ?_⟩
          · rw [hwhole]
            simp
          · rw [hleft, without_eq_self (hdisjoint id hmem)]
            simp
        · obtain ⟨before, behind, parent, level, hwhole, hleft⟩ :=
            ihnext own depth hnodupNext h
          refine ⟨⟨head, own, depth, 0⟩ :: (body.entriesFrom (some head.id) (depth + 1) ++ before),
            behind, parent, level, ?_, ?_⟩
          · rw [hwhole]
            simp
          · rw [hleft, without_eq_self (find?_eq_none_iff.mp hnone)]
            simp

/-- Taking a node out changes no depth outside of it. -/
theorem depthUnder?_without {b : Block} {id : String} {node : Node} {parent : Option String}
    (hnodup : b.ids.Nodup) (hnode : b.find? id = some node)
    (hout : ∀ other ∈ parent, other ∉ node.ids) :
    (b.without id).depthUnder? parent = b.depthUnder? parent := by
  obtain ⟨before, behind, own, level, hwhole, hleft⟩ :=
    exists_entriesFrom_eq none 0 hnodup hnode
  ext depth
  rw [depthUnder?_eq_some_iff hnodup,
    depthUnder?_eq_some_iff ((ids_without_sublist b id).nodup hnodup), hwhole, hleft]
  refine or_congr_right (exists_congr fun item => and_congr_left fun hitem => ?_)
  have hnot : item ∉ node.toBlock.entriesFrom own level := fun hmem =>
    hout item.id hitem.1.symm (id_mem_of_mem_entriesFrom _ _ _ hmem)
  simp only [List.mem_append, hnot, or_false]

theorem entriesFrom_add (b : Block) (own : Option String) (depth more : Nat) :
    b.entriesFrom own (depth + more) =
      (b.entriesFrom own depth).map fun item => { item with depth := item.depth + more } := by
  induction b generalizing own depth with
  | nil => rfl
  | cons head body next ihbody ihnext =>
      rw [entriesFrom, entriesFrom, List.map_cons, List.map_append, ← ihbody, ← ihnext,
        Nat.add_right_comm]

/-- Within a node, depths are counted from its first statement. -/
theorem depthOf_of_find? {b : Block} {id other : String} {node : Node} {level below : Nat}
    (hnodup : b.ids.Nodup) (hnode : b.find? id = some node) (hlevel : b.depthOf id = .ok level)
    (hbelow : node.toBlock.depthOf other = .ok below) : b.depthOf other = .ok (level + below) := by
  obtain ⟨before, behind, own, start, hwhole, _⟩ :=
    exists_entriesFrom_eq none 0 hnodup hnode
  have hid := (find?_spec hnode).1
  have hfirst : b.depthOf id = .ok start := by
    rw [depthOf_eq_ok_iff hnodup, hwhole]
    exact ⟨⟨node.head, own, start, 0⟩, by simp [entriesFrom_toBlock], hid, rfl⟩
  obtain rfl : start = level := by
    rw [hfirst] at hlevel
    exact Except.ok.inj hlevel
  obtain ⟨item, hitem, rfl, rfl⟩ :=
    (depthOf_eq_ok_iff ((find?_spec hnode).2.nodup hnodup)).mp hbelow
  rw [depthOf_eq_ok_iff hnodup, hwhole]
  rw [entriesFrom_toBlock, List.mem_cons] at hitem
  rcases hitem with rfl | hitem
  · exact ⟨⟨node.head, own, start, 0⟩, by simp [entriesFrom_toBlock], rfl, rfl⟩
  · refine ⟨{ item with depth := item.depth + start }, ?_, rfl, Nat.add_comm _ _⟩
    have hmem : { item with depth := item.depth + start } ∈
        node.body.entriesFrom (some node.head.id) (0 + 1 + start) := by
      rw [entriesFrom_add]
      exact List.mem_map_of_mem hitem
    rw [Nat.zero_add, Nat.add_comm] at hmem
    simp [entriesFrom_toBlock, hmem]

/-! ## Where items of the outline stand -/

theorem id_mem_of_mem_outline {program : Block} {item : OutlineItem} (h : item ∈ program.outline) :
    item.id ∈ program.ids := by
  rw [← map_id_outline]
  exact List.mem_map_of_mem h

theorem exists_mem_outline {program : Block} {id : String} (h : id ∈ program.ids) :
    ∃ item ∈ program.outline, item.id = id := by
  rw [← map_id_outline] at h
  exact List.mem_map.mp h

theorem mem_entriesFrom_of_mem_outline {program : Block} {item : OutlineItem}
    (h : item ∈ program.outline) : item.unindexed ∈ program.entriesFrom none 0 := by
  rw [← map_unindexed_outlineFrom program none 0 0]
  exact List.mem_map_of_mem h

theorem depthOf_of_mem_outline {program : Block} {item : OutlineItem} (hnodup : program.ids.Nodup)
    (h : item ∈ program.outline) : program.depthOf item.id = .ok item.depth :=
  (depthOf_eq_ok_iff hnodup).mpr ⟨_, mem_entriesFrom_of_mem_outline h, rfl, rfl⟩

/-- A node that is grafted on names its parent and stands at the depth that the parent gives. -/
theorem exists_mem_outline_graft {b : Block} {parent : Option String} {node : Node} {depth : Nat}
    (index : Nat) (hnodup : b.ids.Nodup) (h : b.depthUnder? parent = some depth) :
    ∃ item ∈ (b.graft parent none node index).outline,
      item.id = node.head.id ∧ item.parent = parent ∧ item.depth = depth := by
  apply exists_item_graft hnodup b.ne_none
  refine ((depthUnder?_eq_some_iff hnodup).mp h).imp_right ?_
  rintro ⟨entry, hentry, hid, hdepth⟩
  rw [← map_unindexed_outlineFrom b none 0 0] at hentry
  obtain ⟨item, hitem, rfl⟩ := List.mem_map.mp hentry
  exact ⟨item, hitem, hid, hdepth⟩

/-- An item is the child that its parent and its index say. -/
theorem exists_node_of_mem_outlineFrom {b : Block} {own : Option String} {depth start : Nat}
    {item : OutlineItem} (hnodup : b.ids.Nodup) (h : item ∈ b.outlineFrom own depth start) :
    ∃ node, node.head = item.statement ∧
      (own = item.parent ∧ start ≤ item.index ∧ b.nodes[item.index - start]? = some node ∨
        ∃ found, b.find? found.head.id = some found ∧ some found.head.id = item.parent ∧
          found.body.nodes[item.index]? = some node) := by
  induction b generalizing own depth start with
  | nil => cases h
  | cons head body next ihbody ihnext =>
      obtain ⟨hbody, hnext, hnodupBody, hnodupNext, hdisjoint⟩ := nodup_ids_cons.mp hnodup
      rw [outlineFrom, List.mem_cons, List.mem_append] at h
      rcases h with rfl | h | h
      · exact ⟨⟨head, body⟩, rfl, .inl ⟨rfl, Nat.le_refl _, by simp [nodes]⟩⟩
      · obtain ⟨node, hhead, hplace⟩ := ihbody hnodupBody h
        refine ⟨node, hhead, .inr ?_⟩
        rcases hplace with ⟨hparent, _, hnode⟩ | ⟨found, hfound, hparent, hnode⟩
        · exact ⟨⟨head, body⟩, by simp [find?], hparent, hnode⟩
        · have hmem : found.head.id ∈ body.ids := id_mem_of_find? hfound
          refine ⟨found, ?_, hparent, hnode⟩
          rw [find?, if_neg (by simpa using (ne_of_mem_of_not_mem hmem hbody).symm), hfound,
            Option.some_or]
      · obtain ⟨node, hhead, hplace⟩ := ihnext hnodupNext h
        refine ⟨node, hhead, ?_⟩
        rcases hplace with ⟨hparent, hle, hnode⟩ | ⟨found, hfound, hparent, hnode⟩
        · refine .inl ⟨hparent, by omega, ?_⟩
          rw [show item.index - start = item.index - (start + 1) + 1 by omega]
          exact hnode
        · have hmem : found.head.id ∈ next.ids := id_mem_of_find? hfound
          have hnone : body.find? found.head.id = none :=
            find?_eq_none_iff.mpr fun hid => hdisjoint _ hid hmem
          refine .inr ⟨found, ?_, hparent, hnode⟩
          rw [find?, if_neg (by simpa using (ne_of_mem_of_not_mem hmem hnext).symm), hnone,
            Option.none_or, hfound]

/-- Parent, depth and index of an item are a place, and its node stands there. -/
theorem exists_children?_of_mem_outline {program : Block} {item : OutlineItem}
    (hnodup : program.ids.Nodup) (h : item ∈ program.outline) :
    ∃ node children, program.find? item.id = some node ∧
      program.children? item.parent = some children ∧ children[item.index]? = some node ∧
        program.depthUnder? item.parent = some item.depth := by
  obtain ⟨node, hhead, hplace⟩ := exists_node_of_mem_outlineFrom hnodup h
  obtain ⟨children, hchildren, hnode⟩ : ∃ children, program.children? item.parent = some children ∧
      children[item.index]? = some node := by
    rcases hplace with ⟨hparent, _, hnode⟩ | ⟨found, hfound, hparent, hnode⟩
    · rw [← hparent]
      exact ⟨_, rfl, hnode⟩
    · rw [← hparent, children?_some, hfound]
      exact ⟨_, rfl, hnode⟩
  have hdepth : program.depthUnder? item.parent = some item.depth := by
    rw [depthUnder?_eq_some_iff hnodup]
    obtain ⟨before, behind, heq⟩ := List.append_of_mem (mem_entriesFrom_of_mem_outline h)
    rcases parent_of_entriesFrom_eq heq with ⟨hdepth, hparent⟩ | ⟨_, above, habove, hparent⟩
    · exact .inl ⟨hparent.symm, hdepth⟩
    · refine .inr ⟨above, ?_, hparent.symm, ?_⟩
      · rw [heq]
        exact List.mem_append_left _ (List.mem_reverse.mp (List.mem_of_find?_eq_some habove))
      · have hlevel := List.find?_some habove
        rw [OutlineItem.isAbove, beq_iff_eq] at hlevel
        exact hlevel.symm
  refine ⟨node, children, ?_, hchildren, hnode, hdepth⟩
  rw [OutlineItem.id, ← hhead]
  exact find?_of_children? hnodup hchildren (List.mem_of_getElem? hnode)

end Block

end BlockCode
