/- # Going down an outline

The outline of a program read as a list. From one statement to the next the depth rises by one at
most, so that on the way down no level is skipped, and the parent of a statement is the nearest
statement above it that is one level shallower. This is enough to say where a statement has to be
put in so that it comes to stand at a given place of the list with a given depth.

Where an item stands among the statements of its parent plays no part in this; the entries of a
program are the items of its outline without that number.
-/

import Mathlib.Data.List.Chain
import BlockCode.Program.Drag
import BlockCode.Proofs.Program.Graft

namespace BlockCode

/-- The item without its place among the statements of its parent. -/
def OutlineItem.unindexed (item : OutlineItem) : OutlineItem :=
  { item with index := 0 }

namespace Block

/-- The outline of a block without places among the statements of a parent. -/
def entriesFrom (own : Option String) (depth : Nat) : Block → Outline
  | .nil => []
  | .cons head body next =>
    ⟨head, own, depth, 0⟩
      :: (body.entriesFrom (some head.id) (depth + 1) ++ next.entriesFrom own depth)

theorem map_unindexed_outlineFrom (b : Block) (own : Option String) (depth index : Nat) :
    (b.outlineFrom own depth index).map OutlineItem.unindexed = b.entriesFrom own depth := by
  induction b generalizing own depth index with
  | nil => rfl
  | cons head body next ihbody ihnext =>
      rw [outlineFrom, List.map_cons, List.map_append, ihbody, ihnext, entriesFrom]
      rfl

theorem map_id_entriesFrom (b : Block) (own : Option String) (depth : Nat) :
    (b.entriesFrom own depth).map OutlineItem.id = b.ids := by
  rw [← map_id_outlineFrom b own depth 0, ← map_unindexed_outlineFrom b own depth 0,
    List.map_map]
  rfl

theorem id_mem_of_mem_entriesFrom (b : Block) (own : Option String) (depth : Nat)
    {item : OutlineItem} (h : item ∈ b.entriesFrom own depth) : item.id ∈ b.ids := by
  rw [← map_id_entriesFrom b own depth]
  exact List.mem_map_of_mem h

theorem parent_of_mem_entriesFrom {b : Block} {own : Option String} {depth : Nat}
    {item : OutlineItem} (h : item ∈ b.entriesFrom own depth) : b.HasParent own item.parent := by
  induction b generalizing own depth with
  | nil => cases h
  | cons head body next ihbody ihnext =>
      rw [entriesFrom, List.mem_cons, List.mem_append] at h
      rcases h with rfl | h | h
      · exact .inl rfl
      · exact (ihbody h).of_body
      · exact (ihnext h).of_next

/-- No statement names a parent that is not there. -/
theorem countP_parent_eq_zero {b : Block} {own parent : Option String} {depth : Nat}
    (h : ¬ b.HasParent own parent) :
    (b.entriesFrom own depth).countP (fun item => item.parent == parent) = 0 := by
  rw [List.countP_eq_zero]
  intro item hitem heq
  rw [← eq_of_beq heq] at h
  exact h (parent_of_mem_entriesFrom hitem)

theorem le_depth_of_mem_entriesFrom {b : Block} {own : Option String} {depth : Nat}
    {item : OutlineItem} (h : item ∈ b.entriesFrom own depth) : depth ≤ item.depth := by
  induction b generalizing own depth with
  | nil => cases h
  | cons head body next ihbody ihnext =>
      rw [entriesFrom, List.mem_cons, List.mem_append] at h
      rcases h with rfl | h | h
      · exact Nat.le_refl _
      · exact Nat.le_of_succ_le (ihbody h)
      · exact ihnext h

/-- A block starts on its own level. -/
theorem depth_of_head?_entriesFrom (b : Block) (own : Option String) {depth : Nat}
    {item : OutlineItem} (h : item ∈ (b.entriesFrom own depth).head?) : item.depth = depth := by
  cases b with
  | nil => cases h
  | cons head body next =>
      cases h
      rfl

/-- From one statement to the next the depth rises by one at most. -/
theorem isChain_entriesFrom (b : Block) (own : Option String) (depth : Nat) :
    (b.entriesFrom own depth).IsChain fun above below => below.depth ≤ above.depth + 1 := by
  induction b generalizing own depth with
  | nil => exact .nil
  | cons head body next ihbody ihnext =>
      rw [entriesFrom, List.isChain_cons]
      constructor
      · intro item hitem
        rw [List.head?_append, Option.mem_def, Option.or_eq_some_iff] at hitem
        rcases hitem with hitem | ⟨_, hitem⟩
        · exact Nat.le_of_eq (depth_of_head?_entriesFrom _ _ hitem)
        · rw [depth_of_head?_entriesFrom _ _ hitem]
          exact Nat.le_succ depth
      · rw [List.isChain_append]
        refine ⟨ihbody _ _, ihnext _ _, fun last hlast first hfirst => ?_⟩
        have hdepth := le_depth_of_mem_entriesFrom (List.mem_of_getLast? hlast)
        rw [depth_of_head?_entriesFrom _ _ hfirst]
        omega

end Block

/-- On the way down to a depth no level is skipped. -/
theorem Outline.exists_depth_eq {items : Outline} {first last : OutlineItem} (depth : Nat)
    (hchain : items.IsChain fun above below => below.depth ≤ above.depth + 1)
    (hfirst : items.head? = some first) (hlast : items.getLast? = some last)
    (hle : first.depth ≤ depth) (hge : depth ≤ last.depth) :
    ∃ item ∈ items, item.depth = depth := by
  induction items generalizing first with
  | nil => cases hfirst
  | cons item items ih =>
      cases hfirst
      by_cases heq : item.depth = depth
      · exact ⟨item, .head _, heq⟩
      · cases items with
        | nil =>
            cases hlast
            exact absurd (Nat.le_antisymm hle hge) heq
        | cons next items =>
            rw [List.isChain_cons_cons] at hchain
            have hnext : next.depth ≤ depth := by omega
            rw [List.getLast?_cons_cons] at hlast
            obtain ⟨found, hfound, hdepth⟩ := ih hchain.2 rfl hlast hnext
            exact ⟨found, .tail _ hfound, hdepth⟩

namespace Block

theorem filter_ne_entriesFrom {b : Block} {own : Option String} {depth : Nat} {id : String}
    (h : id ∉ b.ids) :
    ((b.entriesFrom own depth).filter fun item => item.id != id) = b.entriesFrom own depth := by
  rw [List.filter_eq_self]
  intro item hitem
  rw [bne_iff_ne]
  rintro rfl
  exact h (id_mem_of_mem_entriesFrom _ _ _ hitem)

/-- Taking out a statement with nothing nested under it takes out one entry. -/
theorem entriesFrom_without {b : Block} {own : Option String} {depth : Nat} {id : String}
    {node : Node} (hnodup : b.ids.Nodup) (h : b.find? id = some node) (hleaf : node.body = .nil) :
    ((b.entriesFrom own depth).filter fun item => item.id != id) =
      (b.without id).entriesFrom own depth := by
  induction b generalizing own depth with
  | nil => rfl
  | cons head body next ihbody ihnext =>
      obtain ⟨_, hnext, hnodupBody, hnodupNext, hdisjoint⟩ := nodup_ids_cons.mp hnodup
      rw [find?] at h
      split at h
      · next hid =>
        cases h
        obtain rfl : body = .nil := hleaf
        obtain rfl := eq_of_beq hid
        rw [without, if_pos rfl, entriesFrom, entriesFrom, List.nil_append,
          List.filter_cons_of_neg (by simp [OutlineItem.id]), filter_ne_entriesFrom hnext]
      · next hid =>
        have hid' : head.id ≠ id := by simpa using hid
        rw [without, if_neg hid', entriesFrom, entriesFrom, List.filter_cons_of_pos
          (by simpa [OutlineItem.id] using hid'), List.filter_append]
        rcases Option.or_eq_some_iff.mp h with h | ⟨hnone, h⟩
        · have hmem : id ∈ body.ids := find?_isSome_iff.mp (by rw [h]; rfl)
          rw [ihbody hnodupBody h, filter_ne_entriesFrom (hdisjoint id hmem),
            without_eq_self (hdisjoint id hmem)]
        · have hmem : id ∉ body.ids := find?_eq_none_iff.mp hnone
          rw [ihnext hnodupNext h, filter_ne_entriesFrom hmem, without_eq_self hmem]

end Block

/-- Whether the item is on the level above the depth. -/
def OutlineItem.isAbove (depth : Nat) (item : OutlineItem) : Bool :=
  item.depth + 1 == depth

namespace Block

/-- No entry of a block is above the level of the block. -/
theorem find?_isAbove_entriesFrom {b : Block} {own : Option String} {depth : Nat}
    {before behind : Outline} (h : b.entriesFrom own depth = before ++ behind) :
    before.reverse.find? (OutlineItem.isAbove depth) = none := by
  rw [List.find?_eq_none]
  intro item hitem habove
  have hmem : item ∈ b.entriesFrom own depth := by
    rw [h]
    exact List.mem_append_left _ (List.mem_reverse.mp hitem)
  have hle := le_depth_of_mem_entriesFrom hmem
  rw [OutlineItem.isAbove, beq_iff_eq] at habove
  omega

/-- Each entry is on the level of the block and names the block's parent, or it names the nearest
entry above it that is one level shallower. -/
theorem parent_of_entriesFrom_eq {b : Block} {own : Option String} {depth : Nat}
    {before behind : Outline} {item : OutlineItem}
    (h : b.entriesFrom own depth = before ++ item :: behind) :
    (item.depth = depth ∧ item.parent = own) ∨
      depth < item.depth ∧ ∃ above,
        before.reverse.find? (OutlineItem.isAbove item.depth) = some above ∧
          item.parent = some above.id := by
  induction b generalizing own depth before behind with
  | nil =>
      rw [entriesFrom] at h
      simp at h
  | cons head body next ihbody ihnext =>
      rw [entriesFrom] at h
      cases before with
      | nil =>
          cases h
          exact .inl ⟨rfl, rfl⟩
      | cons first before =>
          rw [List.cons_append, List.cons.injEq] at h
          obtain ⟨rfl, h⟩ := h
          rw [List.reverse_cons, List.find?_append]
          rcases List.append_eq_append_iff.mp h with ⟨between, rfl, hnext⟩ | ⟨between, hbody, hrest⟩
          · -- The entry is behind everything nested under the first statement.
            rcases ihnext hnext with hown | ⟨hlt, above, habove, hparent⟩
            · exact .inl hown
            · refine .inr ⟨hlt, above, ?_, hparent⟩
              rw [List.reverse_append, List.find?_append, habove]
              rfl
          · cases between with
            | nil =>
                rw [List.append_nil] at hbody
                rw [List.nil_append] at hrest
                rw [← List.nil_append (item :: behind)] at hrest
                rcases ihnext hrest.symm with hown | ⟨_, _, habove, _⟩
                · exact .inl hown
                · cases habove
            | cons item' between =>
                rw [List.cons_append, List.cons.injEq] at hrest
                obtain ⟨rfl, _⟩ := hrest
                rcases ihbody hbody with ⟨hdepth, hparent⟩ | ⟨hlt, above, habove, hparent⟩
                · refine .inr ⟨by omega, ⟨head, own, depth, 0⟩, ?_, hparent⟩
                  rw [hdepth, find?_isAbove_entriesFrom hbody]
                  simp [OutlineItem.isAbove]
                · refine .inr ⟨by omega, above, ?_, hparent⟩
                  rw [habove]
                  rfl

/-- Between the first entry and a deeper one there is an entry of every depth in between. -/
theorem exists_isAbove {b : Block} {own : Option String} {depth target : Nat}
    {before behind : Outline} {last : OutlineItem}
    (h : before ++ behind = b.entriesFrom own depth) (hlast : before.getLast? = some last)
    (hlt : depth < target) (hle : target ≤ last.depth + 1) :
    ∃ above, before.reverse.find? (OutlineItem.isAbove target) = some above := by
  have hchain := isChain_entriesFrom b own depth
  rw [← h, List.isChain_append] at hchain
  cases before with
  | nil => cases hlast
  | cons first before =>
      have hfirst : first.depth = depth := by
        apply depth_of_head?_entriesFrom b own
        rw [← h]
        rfl
      obtain ⟨item, hitem, hdepth⟩ := Outline.exists_depth_eq (target - 1) hchain.1 rfl hlast
        (by omega) (by omega)
      have hsome : ((first :: before).reverse.find? (OutlineItem.isAbove target)).isSome := by
        rw [List.find?_isSome]
        refine ⟨item, List.mem_reverse.mpr hitem, ?_⟩
        rw [OutlineItem.isAbove, beq_iff_eq]
        omega
      exact Option.isSome_iff_exists.mp hsome

/-- Behind the last entry of a depth, on the way to a deeper one, nothing is shallower. -/
theorem find?_isAbove_eq_none {items before deeper : Outline} {item last : OutlineItem}
    (hchain : items.IsChain fun above below => below.depth ≤ above.depth + 1)
    (hitems : items = before ++ item :: deeper.reverse) (hlast : items.getLast? = some last)
    (hdeeper : ∀ other ∈ deeper, other.depth ≠ item.depth) (hlt : item.depth < last.depth) :
    deeper.find? (OutlineItem.isAbove item.depth) = none := by
  rw [List.find?_eq_none]
  intro other hother habove
  rw [OutlineItem.isAbove, beq_iff_eq] at habove
  obtain ⟨near, far, rfl⟩ := List.append_of_mem hother
  have hsplit : items = (before ++ item :: far.reverse) ++ other :: near.reverse := by
    rw [hitems]
    simp
  rw [hsplit] at hchain hlast
  rw [List.getLast?_append] at hlast
  obtain ⟨found, hfound, hdepth⟩ := Outline.exists_depth_eq item.depth
    (List.isChain_append.mp hchain).2.1 rfl (by simpa using hlast) (by omega) (by omega)
  have hmem : found ∈ near ++ other :: far := by
    rcases List.mem_cons.mp hfound with rfl | hfound
    · simp
    · simp [List.mem_reverse.mp hfound]
  exact hdeeper found hmem hdepth

/-- The parent that a statement gets at a depth is the nearest entry one level above it. -/
theorem parentAtDepth_eq {b : Block} {before behind : Outline} {last : OutlineItem} {depth : Nat}
    (h : before ++ behind = b.entriesFrom none 0) (hlast : before.getLast? = some last)
    (hpos : 0 < depth) (hle : depth ≤ last.depth + 1) :
    parentAtDepth before.reverse depth =
      (before.reverse.find? (OutlineItem.isAbove depth)).map OutlineItem.id := by
  obtain ⟨front, rfl⟩ := List.getLast?_eq_some_iff.mp hlast
  have hne : ¬ (depth == 0) = true := by simp; omega
  have hchain := isChain_entriesFrom b none 0
  rw [← h] at hchain
  rw [List.reverse_append, List.reverse_singleton, List.singleton_append, parentAtDepth,
    if_neg hne]
  rw [List.append_assoc] at h
  by_cases hsame : depth = last.depth
  · rw [if_pos (by simpa using hsame)]
    rcases parent_of_entriesFrom_eq h.symm with ⟨hzero, _⟩ | ⟨_, above, habove, hparent⟩
    · omega
    · rw [List.find?_cons_of_neg (by simp [OutlineItem.isAbove]; omega), hsame, habove, hparent]
      rfl
  · rw [if_neg (by simpa using hsame)]
    by_cases hdeeper : last.depth < depth
    · rw [if_pos hdeeper, List.find?_cons_of_pos (by simp [OutlineItem.isAbove]; omega)]
      rfl
    · rw [if_neg hdeeper]
      have hlt : depth < last.depth := by omega
      obtain ⟨first, hfirst⟩ : ∃ first, (front ++ [last]).head? = some first := by
        cases front <;> exact ⟨_, rfl⟩
      have hzero : first.depth = 0 := by
        apply depth_of_head?_entriesFrom b none
        rw [← h, ← List.append_assoc, List.head?_append, hfirst]
        rfl
      obtain ⟨level, hlevel, hdepth⟩ := Outline.exists_depth_eq depth
        (List.isChain_append.mp hchain).1 hfirst hlast (by omega) (by omega)
      have hsome : ((last :: front.reverse).find? fun item => item.depth == depth).isSome := by
        rw [List.find?_isSome]
        refine ⟨level, ?_, by simpa using hdepth⟩
        simpa [or_comm] using hlevel
      obtain ⟨item, hitem⟩ := Option.isSome_iff_exists.mp hsome
      obtain ⟨hitemDepth, deeper, rest, hsplit, hdeeper⟩ := List.find?_eq_some_iff_append.mp hitem
      obtain rfl : item.depth = depth := by simpa using hitemDepth
      have hlist : front ++ [last] = rest.reverse ++ item :: deeper.reverse := by
        have hreverse := congrArg List.reverse hsplit
        simpa using hreverse
      have hnone := find?_isAbove_eq_none (List.isChain_append.mp hchain).1 hlist hlast
        (fun other hother => by simpa using hdeeper other hother) hlt
      have hentries : b.entriesFrom none 0 =
          rest.reverse ++ item :: (deeper.reverse ++ behind) := by
        rw [← h, ← List.append_assoc, hlist, List.append_assoc]
        rfl
      rcases parent_of_entriesFrom_eq hentries with ⟨hzero, _⟩ | ⟨_, above, habove, hparent⟩
      · omega
      · rw [List.reverse_reverse] at habove
        rw [hitem, hsplit, List.find?_append, hnone, Option.none_or,
          List.find?_cons_of_neg (by simp [OutlineItem.isAbove]), habove]
        exact hparent

/-! ## Putting a statement at a place of the list -/

/-- A statement that is put into a block itself comes to stand between the entries that are
before and behind its place. -/
theorem entriesFrom_insertAt {b : Block} {own : Option String} {depth : Nat} {s : Statement}
    {before behind : Outline} (h : before ++ behind = b.entriesFrom own depth)
    (hown : ∀ id ∈ b.ids, some id ≠ own) (hnodup : b.ids.Nodup)
    (hbehind : ∀ item ∈ behind.head?, item.depth ≤ depth) :
    (b.insertAt ⟨s, .nil⟩ (before.countP fun item => item.parent == own)).entriesFrom own depth =
      before ++ ⟨s, own, depth, 0⟩ :: behind := by
  induction b generalizing before with
  | nil =>
      obtain ⟨rfl, rfl⟩ := List.append_eq_nil_iff.mp h
      rfl
  | cons head body next _ ih =>
      cases before with
      | nil =>
          rw [List.nil_append] at h
          rw [List.countP_nil, insertAt_zero, entriesFrom, h]
          rfl
      | cons first before =>
          rw [List.cons_append, entriesFrom, List.cons.injEq] at h
          obtain ⟨rfl, h⟩ := h
          have hbody : ¬ body.HasParent (some head.id) own := by
            rintro (heq | ⟨id, hid, heq⟩)
            · exact hown head.id (by simp) heq
            · exact hown id (by simp [hid]) heq
          obtain ⟨between, rfl, hnext⟩ : ∃ between,
              before = body.entriesFrom (some head.id) (depth + 1) ++ between ∧
                between ++ behind = next.entriesFrom own depth := by
            rcases List.append_eq_append_iff.mp h with ⟨between, hbody, rfl⟩ | ⟨between, rfl, hnext⟩
            · cases between with
              | nil => exact ⟨[], by simpa using hbody.symm, rfl⟩
              | cons item between =>
                  -- A deeper entry would stand right behind the place.
                  have hmem : item ∈ body.entriesFrom (some head.id) (depth + 1) := by
                    rw [hbody]
                    simp
                  have hle := le_depth_of_mem_entriesFrom hmem
                  have hge := hbehind item rfl
                  omega
            · exact ⟨between, rfl, hnext.symm⟩
          have hnext' := ih hnext (ne_own_of_cons hown) (nodup_ids_cons.mp hnodup).2.2.2.1
          rw [List.countP_cons_of_pos (by simp), List.countP_append, countP_parent_eq_zero hbody,
            Nat.zero_add, insertAt, entriesFrom, hnext']
          simp

/-- A place in a list of two parts is in the first part, at its end at the latest, or behind an
item of the second. -/
theorem exists_place {before behind first second : Outline}
    (h : before ++ behind = first ++ second) :
    (∃ between, first = before ++ between ∧ behind = between ++ second) ∨
      ∃ item between, before = first ++ item :: between ∧
        (item :: between) ++ behind = second := by
  rcases List.append_eq_append_iff.mp h with hfirst | ⟨between, hbefore, hsecond⟩
  · exact .inl hfirst
  · cases between with
    | nil => exact .inl ⟨[], by simpa using hbefore.symm, by simpa using hsecond.symm⟩
    | cons item between => exact .inr ⟨item, between, hbefore, hsecond.symm⟩

/-- A statement that is put under a nested parent comes to stand between the entries that are
before and behind its place, if the parent is the nearest entry one level above. -/
theorem entriesFrom_graft {b : Block} {own : Option String} {depth target : Nat} {s : Statement}
    {before behind : Outline} {last above : OutlineItem}
    (h : before ++ behind = b.entriesFrom own depth)
    (hown : ∀ id ∈ b.ids, some id ≠ own) (hnodup : b.ids.Nodup)
    (hlast : before.getLast? = some last) (hlt : depth < target) (hle : target ≤ last.depth + 1)
    (hbehind : ∀ item ∈ behind.head?, item.depth ≤ target)
    (habove : before.reverse.find? (OutlineItem.isAbove target) = some above) :
    (b.graft (some above.id) own ⟨s, .nil⟩
        (before.countP fun item => item.parent == some above.id)).entriesFrom own depth =
      before ++ ⟨s, some above.id, target, 0⟩ :: behind := by
  induction b generalizing own depth before behind with
  | nil =>
      obtain ⟨rfl, rfl⟩ := List.append_eq_nil_iff.mp h
      cases hlast
  | cons head body next ihbody ihnext =>
      obtain ⟨_, _, hnodupBody, hnodupNext, _⟩ := nodup_ids_cons.mp hnodup
      cases before with
      | nil => cases hlast
      | cons first before =>
          have hmemBefore := List.mem_reverse.mp (List.mem_of_find?_eq_some habove)
          have hmem : above ∈ (cons head body next).entriesFrom own depth := by
            rw [← h]
            exact List.mem_append_left _ hmemBefore
          have hne : own ≠ some above.id := (hown _ (id_mem_of_mem_entriesFrom _ _ _ hmem)).symm
          rw [List.cons_append, entriesFrom, List.cons.injEq] at h
          obtain ⟨rfl, h⟩ := h
          rw [List.countP_cons_of_neg (by simpa using hne), graft, if_neg hne, entriesFrom]
          rcases exists_place h with ⟨between, hbody, rfl⟩ | ⟨item, between, rfl, hrest⟩
          · have hparent : body.HasParent (some head.id) (some above.id) := by
              rcases List.mem_cons.mp hmemBefore with rfl | hmemBefore
              · exact .inl rfl
              · refine .inr ⟨above.id, ?_, rfl⟩
                apply id_mem_of_mem_entriesFrom body (some head.id) (depth + 1)
                rw [hbody]
                exact List.mem_append_left _ hmemBefore
            have hbetween : ∀ item ∈ between.head?, item.depth ≤ target := by
              intro item hitem
              apply hbehind item
              rw [List.head?_append, Option.mem_def.mp hitem]
              rfl
            rw [graft_eq_self (hparent.not_next hnodup hown)]
            by_cases hdirect : target = depth + 1
            · -- The first statement is the parent itself.
              subst hdirect
              rw [List.reverse_cons, List.find?_append, find?_isAbove_entriesFrom hbody,
                Option.none_or] at habove
              obtain rfl := List.mem_singleton.mp (List.mem_of_find?_eq_some habove)
              have hbody' := entriesFrom_insertAt (s := s) hbody.symm (ne_head_of_nodup hnodup)
                hnodupBody hbetween
              rw [OutlineItem.id, graft_own, hbody']
              simp
            · have hlast' : before.getLast? = some last := by
                cases before with
                | nil =>
                    cases hlast
                    exact absurd (Nat.le_antisymm hle hlt) hdirect
                | cons item before => rwa [List.getLast?_cons_cons] at hlast
              have hlt' : depth + 1 < target := by omega
              obtain ⟨above', habove'⟩ := exists_isAbove hbody.symm hlast' hlt' hle
              obtain rfl : above' = above := by
                rw [List.reverse_cons, List.find?_append, habove', Option.some_or] at habove
                exact Option.some.inj habove
              have hbody' := ihbody hbody.symm (ne_head_of_nodup hnodup) hnodupBody hlast' hlt'
                hbetween habove'
              rw [hbody']
              simp
          · have hlast' : (item :: between).getLast? = some last := by
              rw [← List.cons_append, List.getLast?_append] at hlast
              simpa using hlast
            obtain ⟨above', habove'⟩ := exists_isAbove hrest hlast' hlt hle
            obtain rfl : above' = above := by
              rw [List.reverse_cons, List.reverse_append, List.append_assoc, List.find?_append,
                habove', Option.some_or] at habove
              exact Option.some.inj habove
            have hparent : next.HasParent own (some above'.id) := by
              refine .inr ⟨above'.id, ?_, rfl⟩
              apply id_mem_of_mem_entriesFrom next own depth
              rw [← hrest]
              exact List.mem_append_left _ (List.mem_reverse.mp (List.mem_of_find?_eq_some habove'))
            have hout : ¬ body.HasParent (some head.id) (some above'.id) :=
              fun hbody => hbody.not_next hnodup hown hparent
            have hnext' := ihnext hrest (ne_own_of_cons hown) hnodupNext hlast' hlt hbehind
              habove'
            rw [graft_eq_self hout, List.countP_append, countP_parent_eq_zero hout, Nat.zero_add,
              hnext']
            simp

end Block

end BlockCode
