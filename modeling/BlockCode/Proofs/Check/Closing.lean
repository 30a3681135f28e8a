/- # Every closing line is needed

In a program without findings each line that closes a block stands directly behind a line that
leaves the block open. Without the closing line that one has nothing to follow it, and this is the
only finding: the line that comes next now does not belong to a block, the closing line defined and
wrote nothing, and no other line had it as a neighbour.
-/

import BlockCode.Proofs.Check.Constants
import BlockCode.Proofs.Check.Leaving
import BlockCode.Proofs.Program.Insertion

namespace BlockCode

/-! ## Neighbours among the children -/

namespace Block

theorem exists_spot_of_nodes {b : Block} {i : Nat} {node : Node} (h : b.nodes[i]? = some node)
    (ancestors : List Statement) (previous : Option Statement) :
    ∃ spot ∈ b.spotsUnder ancestors previous, spot.head = node.head ∧ spot.body = node.body ∧
      spot.next = b.nodes[i + 1]?.map Node.head ∧ (i = 0 → spot.previous = previous) := by
  induction b generalizing i previous with
  | nil => cases h
  | cons head body next _ ih =>
      rw [spotsUnder]
      cases i with
      | zero =>
          cases h
          refine ⟨_, .head _, rfl, rfl, ?_, fun _ => rfl⟩
          cases next <;> rfl
      | succ i =>
          obtain ⟨spot, hspot, hhead, hbody, hnext, _⟩ := ih h (some head)
          exact ⟨spot, .tail _ (List.mem_append_right _ hspot), hhead, hbody, hnext,
            fun hzero => absurd hzero (Nat.succ_ne_zero i)⟩

theorem exists_spotsUnder_subset {b : Block} {id : String} {found : Node}
    (h : b.find? id = some found) (ancestors : List Statement) (previous : Option Statement) :
    ∃ inner, found.body.spotsUnder inner none ⊆ b.spotsUnder ancestors previous := by
  induction b generalizing ancestors previous with
  | nil => cases h
  | cons head body next ihbody ihnext =>
      rw [find?] at h
      rw [spotsUnder]
      split at h
      · cases h
        exact ⟨_, fun spot hspot => .tail _ (List.mem_append_left _ hspot)⟩
      · rcases Option.or_eq_some_iff.mp h with h | ⟨_, h⟩
        · obtain ⟨inner, hsubset⟩ := ihbody h (head :: ancestors) none
          exact ⟨inner, fun spot hspot => .tail _ (List.mem_append_left _ (hsubset hspot))⟩
        · obtain ⟨inner, hsubset⟩ := ihnext h ancestors (some head)
          exact ⟨inner, fun spot hspot => .tail _ (List.mem_append_right _ (hsubset hspot))⟩

/-- A child of a statement has the next child behind it, and the first one has none in front. -/
theorem exists_spot_of_children? {program : Block} {parent : Option String} {children : List Node}
    {i : Nat} {node : Node} (hchildren : program.children? parent = some children)
    (h : children[i]? = some node) :
    ∃ spot ∈ program.spots, spot.head = node.head ∧ spot.body = node.body ∧
      spot.next = children[i + 1]?.map Node.head ∧ (i = 0 → spot.previous = none) := by
  cases parent with
  | none =>
      cases hchildren
      exact exists_spot_of_nodes h [] none
  | some id =>
      rw [children?_some] at hchildren
      obtain ⟨found, hfound, rfl⟩ := Option.map_eq_some_iff.mp hchildren
      obtain ⟨inner, hsubset⟩ := exists_spotsUnder_subset hfound [] none
      obtain ⟨spot, hspot, hfacts⟩ := exists_spot_of_nodes h inner none
      exact ⟨spot, hsubset hspot, hfacts⟩

theorem spot_eq_of_id_eq {program : Block} (hnodup : program.ids.Nodup) {spot other : Spot}
    (hspot : spot ∈ program.spots) (hother : other ∈ program.spots)
    (h : spot.head.id = other.head.id) : spot = other := by
  have hids : (program.spots.map fun spot => spot.head.id).Nodup := by
    rw [← Function.comp_def, ← List.map_map, spots, map_head_spotsUnder]
    exact hnodup
  exact List.inj_on_of_nodup_map hids hspot hother h

end Block

/-! ## Faults of the other lines -/

namespace Line

theorem successorFaults_of_leadsTo {line : Line}
    (h : line.kind.LeadsTo (line.nextSibling?.map fun item => item.statement.kind)) :
    line.successorFaults = [] := by
  rw [successorFaults]
  cases hkinds : line.kind.successors? with
  | none => rfl
  | some kinds =>
      rw [StatementKind.LeadsTo, hkinds, Option.all_some, Option.any_map] at h
      exact if_pos h

theorem successorFaults_of_not_leadsTo {line : Line}
    (h : ¬ line.kind.LeadsTo (line.nextSibling?.map fun item => item.statement.kind)) :
    line.successorFaults = [.missingSuccessor line.kind] := by
  rw [successorFaults]
  cases hkinds : line.kind.successors? with
  | none => exact absurd (StatementKind.leadsTo_of_none _ hkinds) h
  | some kinds =>
      rw [StatementKind.LeadsTo, hkinds, Option.all_some, Option.any_map] at h
      exact if_neg h

theorem predecessorFaults_of_follows {line : Line}
    (h : line.kind.Follows (line.previousSibling?.map fun item => item.statement.kind)) :
    line.predecessorFaults = [] := by
  rw [predecessorFaults]
  cases hkinds : line.kind.predecessors? with
  | none => rfl
  | some kinds =>
      rw [StatementKind.Follows, hkinds, Option.all_some, Option.any_map] at h
      exact if_pos h

end Line

section Closing

variable {program : Block} {closing : Spot} (hformed : program.WellFormed)
  (hclosing : closing ∈ program.spots) (hcloses : closing.head.kind.closesBlock = true)

include hformed hclosing

/-- What has the closing line behind it stands in front of it. -/
theorem previous_of_next {spot : Spot} (hspot : spot ∈ program.spots)
    (h : spot.next = some closing.head) : closing.previous = some spot.head := by
  obtain ⟨other, hother, hhead, hprevious⟩ := Block.exists_spot_of_next hspot h
  rw [← Block.spot_eq_of_id_eq hformed.distinct hother hclosing (congrArg Statement.id hhead)]
  exact hprevious

include hcloses

/-- What comes behind a closing line does not belong to a block before it. -/
theorem predecessors?_of_next {s : Statement} (h : closing.next = some s) :
    s.kind.predecessors? = none := by
  obtain ⟨other, hother, rfl, hprevious⟩ := Block.exists_spot_of_next hclosing h
  have hsound := (Block.wellFormed_iff.mp hformed).2 other hother
  have hfollows := hsound.follows
  rw [hprevious] at hfollows
  exact (settled_some (StatementKind.opensBlock_of_closesBlock hcloses).2).predecessors?_eq_none
    hfollows

/-- What the closing line comes after cannot do without it. -/
theorem leadsTo_iff_of_loses {spot left : Spot} (hspot : spot ∈ program.spots)
    (hloses : closing.Loses spot left) :
    left.head.kind.LeadsTo (left.next.map Statement.kind) ↔ spot.next ≠ some closing.head := by
  have hsound := (Block.wellFormed_iff.mp hformed).2
  rw [hloses.head, hloses.next]
  by_cases hnext : spot.next = some closing.head
  · rw [if_pos hnext]
    refine iff_of_false (fun hleads => ?_) (not_not.mpr hnext)
    obtain ⟨kinds, hkinds⟩ := StatementKind.predecessors?_of_closesBlock hcloses
    have hfollows := (hsound closing hclosing).follows
    rw [previous_of_next hformed hclosing hspot hnext] at hfollows
    obtain ⟨opening, hopening, hmem⟩ := hfollows.exists_mem hkinds
    cases hopening
    obtain ⟨wanted, hwanted⟩ := Option.ne_none_iff_exists'.mp
      (StatementKind.successors?_of_mem_predecessors? hkinds hmem)
    obtain ⟨kind, hkind, hmem'⟩ := hleads.exists_mem hwanted
    obtain ⟨s, hs, rfl⟩ := Option.map_eq_some_iff.mp hkind
    exact StatementKind.predecessors?_of_mem_successors? hwanted hmem'
      (predecessors?_of_next hformed hclosing hcloses hs)
  · rw [if_neg hnext]
    exact iff_of_true (hsound spot hspot).leads hnext

omit hclosing in
/-- Nothing misses the closing line in front of it. -/
theorem follows_of_loses {spot left : Spot} (hspot : spot ∈ program.spots)
    (hloses : closing.Loses spot left) :
    left.head.kind.Follows (left.previous.map Statement.kind) := by
  have hfollows := ((Block.wellFormed_iff.mp hformed).2 spot hspot).follows
  rw [hloses.head]
  by_cases hprevious : spot.previous = some closing.head
  · rw [hprevious] at hfollows
    have hsettled := settled_some (StatementKind.opensBlock_of_closesBlock hcloses).2
    exact StatementKind.follows_of_none _ (hsettled.predecessors?_eq_none hfollows)
  · rw [hloses.previous hprevious]
    exact hfollows

/-- Of the other lines only the one that the closing line comes after gets a fault. -/
theorem faults_of_loses {line leftLine : Line} {spot left : Spot}
    {functions : List FunctionSignature} (hspot : spot ∈ program.spots)
    (hremains : line.Remains leftLine) (hagrees : leftLine.Agrees left)
    (hloses : closing.Loses spot left) (hfaults : line.faults functions = [])
    (hid : leftLine.idFaults = []) :
    leftLine.faults functions =
      if spot.next = some closing.head then [.missingSuccessor spot.head.kind] else [] := by
  have hkind : leftLine.kind = left.head.kind := congrArg Statement.kind hagrees.statement
  have hnext : (leftLine.nextSibling?.map fun item => item.statement.kind) =
      left.next.map Statement.kind := by
    rw [← hagrees.next, Option.map_map]
    rfl
  have hprevious : (leftLine.previousSibling?.map fun item => item.statement.kind) =
      left.previous.map Statement.kind := by
    rw [← hagrees.previous, Option.map_map]
    rfl
  have hleads := leadsTo_iff_of_loses hformed hclosing hcloses hspot hloses
  have hfollows := follows_of_loses hformed hcloses hspot hloses
  rw [← hkind, ← hnext] at hleads
  rw [← hkind, ← hprevious] at hfollows
  rw [hremains.faults_eq hfaults hid, Line.predecessorFaults_of_follows hfollows, List.append_nil]
  by_cases h : spot.next = some closing.head
  · rw [if_pos h, Line.successorFaults_of_not_leadsTo (fun h' => hleads.mp h' h), hkind,
      hloses.head]
  · rw [if_neg h, Line.successorFaults_of_leadsTo (hleads.mpr h)]

end Closing

/-! ## The one finding -/

/-- When one line has one fault and the others have none, this is the only finding. -/
theorem Outline.exists_findings_eq {items : Outline} (hnodup : (items.map OutlineItem.id).Nodup)
    {id : String} (hid : id ∈ items.map OutlineItem.id) {fault : Fault}
    (hfaults : ∀ line ∈ items.lines,
      line.faults items.functions = if line.item.id = id then [fault] else []) :
    ∃ position, items.position? id = some position ∧
      items.findings = [⟨position + 1, id, fault⟩] := by
  obtain ⟨item, hitem, rfl⟩ := List.mem_map.mp hid
  obtain ⟨line, hline, rfl⟩ : ∃ line ∈ items.lines, line.item = item :=
    exists_mem_linesFrom hitem
  obtain ⟨above, below, hlines⟩ := List.append_of_mem hline
  rw [lines] at hlines
  have hitems : items = above.map Line.item ++ line.item :: below.map Line.item := by
    rw [← map_item_linesFrom [] items, hlines, List.map_append, List.map_cons]
  rw [hitems] at hnodup
  have hposition := position?_eq_length hnodup
  rw [← hitems, List.length_map] at hposition
  have hbefore : line.before.length = above.length := by
    have hat : (linesFrom [] items)[above.length]? = some line := by rw [hlines]; simp
    rw [before_of_getElem?_linesFrom hat, hitems]
    simp
  rw [List.map_append, List.map_cons, List.nodup_middle, List.nodup_cons, ← List.map_append,
    ← List.map_append] at hnodup
  have hothers : ∀ other ∈ above ++ below,
      (other.faults items.functions).map other.finding = [] := by
    intro other hother
    have hne : other.item.id ≠ line.item.id := fun heq =>
      hnodup.1 (heq ▸ List.mem_map_of_mem (List.mem_map_of_mem hother))
    have hmem : other ∈ items.lines := by
      rw [lines, hlines]
      exact (List.perm_middle.symm.subset (.tail _ hother))
    rw [hfaults other hmem, if_neg hne, List.map_nil]
  rw [List.forall_mem_append] at hothers
  refine ⟨above.length, hposition, ?_⟩
  rw [findings, lines, hlines, List.flatMap_append, List.flatMap_cons,
    List.flatMap_eq_nil_iff.mpr hothers.1, List.flatMap_eq_nil_iff.mpr hothers.2,
    hfaults line hline, if_pos rfl, ← hbefore]
  rfl

namespace Block

variable {program : Block} {closing : Node}

theorem definition?_of_closesBlock {s : Statement} (h : s.kind.closesBlock = true) :
    s.definition? = none := by
  rw [Statement.definition?, if_neg]
  intro hkind
  rw [hkind] at h
  cases h

theorem ne_of_children? (hnodup : program.ids.Nodup) {parent : Option String}
    {children : List Node} {i j : Nat} {a b : Node}
    (hchildren : program.children? parent = some children) (ha : children[i]? = some a)
    (hb : children[j]? = some b) (hne : i ≠ j) : a.head.id ≠ b.head.id := by
  intro hid
  have hlt : i < (children.map fun child => child.head.id).length := by
    rw [List.length_map]
    exact (List.getElem?_eq_some_iff.mp ha).1
  exact hne ((List.getElem?_inj hlt (nodup_ids_children? hnodup hchildren)).mp
    (by simp [ha, hb, hid]))

/-- Nothing is nested under a closing line, and it is not the first of its list. -/
theorem exists_previous_of_closesBlock (hformed : program.WellFormed) {parent : Option String}
    {children : List Node} {index : Nat} (hchildren : program.children? parent = some children)
    (h : children[index]? = some closing) (hcloses : closing.head.kind.closesBlock = true) :
    closing.body = .nil ∧ ∃ before previous, index = before + 1 ∧
      children[before]? = some previous := by
  obtain ⟨spot, hspot, hhead, hbody, _, hfirst⟩ := exists_spot_of_children? hchildren h
  have hsound := (wellFormed_iff.mp hformed).2 spot hspot
  rw [← hhead] at hcloses
  constructor
  · rw [← hbody]
    by_contra hne
    have hscoping := hsound.scoping hne
    rw [StatementKind.isScoping_of_closesBlock hcloses] at hscoping
    cases hscoping
  · cases index with
    | zero =>
        obtain ⟨kinds, hkinds⟩ := StatementKind.predecessors?_of_closesBlock hcloses
        have hfollows := hsound.follows
        rw [hfirst rfl] at hfollows
        obtain ⟨_, ⟨⟩, _⟩ := hfollows.exists_mem hkinds
    | succ before =>
        obtain ⟨hlt, _⟩ := List.getElem?_eq_some_iff.mp h
        exact ⟨before, _, rfl, List.getElem?_eq_getElem (Nat.lt_of_succ_lt hlt)⟩

/-- Without its closing line a block has one finding, at the line that the closing line came
after. -/
theorem exists_validate_without (hvalid : program.validate = []) {parent : Option String}
    {children : List Node} {before : Nat} {previous : Node}
    (hchildren : program.children? parent = some children)
    (hprevious : children[before]? = some previous) (h : children[before + 1]? = some closing)
    (hcloses : closing.head.kind.closesBlock = true) :
    ∃ position,
      (program.without closing.head.id).outline.position? previous.head.id = some position ∧
        (program.without closing.head.id).validate =
          [⟨position + 1, previous.head.id, .missingSuccessor previous.head.kind⟩] := by
  have hformed := wellFormed_of_validate hvalid
  have hnodup := hformed.distinct
  have hfind := find?_of_children? hnodup hchildren (List.mem_of_getElem? h)
  have hleaf := (exists_previous_of_closesBlock hformed hchildren h hcloses).1
  have hleft : (program.without closing.head.id).ids.Nodup :=
    (ids_without_sublist program closing.head.id).nodup hnodup
  obtain ⟨gone, hgone, hhead, hlines⟩ := exists_gone hnodup hfind hleaf
  rw [← hhead] at hcloses
  obtain ⟨opening, hopening, hopeningHead, _, hnext, _⟩ :=
    exists_spot_of_children? hchildren hprevious
  rw [h, Option.map_some, ← hhead] at hnext
  rw [← hopeningHead]
  apply Outline.exists_findings_eq
  · rw [map_id_outline]
    exact hleft
  · rw [map_id_outline]
    have hmem : opening.head.id ∈ program.ids := by
      rw [hopeningHead]
      exact id_mem_of_find?
        (find?_of_children? hnodup hchildren (List.mem_of_getElem? hprevious))
    have hne : opening.head.id ≠ closing.head.id := by
      rw [hopeningHead]
      exact ne_of_children? hnodup hchildren hprevious h (Nat.succ_ne_self before).symm
    rw [(ids_perm_without hnodup hfind).mem_iff, node_ids, hleaf, List.mem_append,
      List.mem_cons, or_iff_right hne] at hmem
    exact hmem.resolve_left (List.not_mem_nil)
  · intro left hmem
    obtain ⟨line, hline, hremains, spot, hspot, spot', hagrees, hagrees', hloses⟩ :=
      hlines left hmem
    have hid : left.item.id = spot.head.id := by
      rw [← hloses.head, ← hagrees'.statement]
      rfl
    have hfaults := faults_of_validate hvalid line hline
    rw [functions_without hnodup hfind hleaf (definition?_of_closesBlock (hhead ▸ hcloses)),
      faults_of_loses hformed hgone hcloses hspot hremains hagrees' hloses hfaults
        (idFaults_eq_nil hleft hmem), hid]
    by_cases hsame : spot.head.id = opening.head.id
    · obtain rfl := spot_eq_of_id_eq hnodup hspot hopening hsame
      rw [if_pos hnext, if_pos rfl]
    · rw [if_neg hsame, if_neg]
      intro hspotNext
      have hheads := (previous_of_next hformed hgone hspot hspotNext).symm.trans
        (previous_of_next hformed hgone hopening hnext)
      exact hsame (congrArg Statement.id (Option.some.inj hheads))

/-- Every closing line is needed, and it is all that is missing without it. In a program without
findings a line that closes a block, at any depth, has a line before it among the children of its
parent. The program without the closing line has one finding: at that line, and it says that a
successor is missing. Put in again at its place, the closing line gives the program back. -/
theorem validate_remove_closing (hvalid : program.validate = [])
    (hclosing : closing ∈ program.preorder) (hcloses : closing.head.kind.closesBlock = true) :
    ∃ parent children before previous rest position,
      program.children? parent = some children ∧ children[before]? = some previous ∧
        children[before + 1]? = some closing ∧ program.remove closing.head.id = .ok rest ∧
        rest.outline.position? previous.head.id = some position ∧
        rest.validate = [⟨position + 1, previous.head.id,
          .missingSuccessor previous.head.kind⟩] ∧
        rest.insert parent (before + 1) closing = .ok program := by
  have hformed := wellFormed_of_validate hvalid
  have hnodup := hformed.distinct
  have hfind := find?_of_mem_preorder hnodup hclosing
  obtain ⟨item, hitem, hid⟩ := exists_mem_outline (id_mem_of_find? hfind)
  obtain ⟨node, children, hnode, hchildren, hindex, _⟩ :=
    exists_children?_of_mem_outline hnodup hitem
  rw [hid, hfind] at hnode
  cases hnode
  obtain ⟨_, before, previous, hbefore, hprevious⟩ :=
    exists_previous_of_closesBlock hformed hchildren hindex hcloses
  rw [hbefore] at hindex
  obtain ⟨position, hposition, hfinding⟩ :=
    exists_validate_without hvalid hchildren hprevious hindex hcloses
  exact ⟨item.parent, children, before, previous, _, position, hchildren, hprevious, hindex,
    remove_eq_ok hnodup hfind, hposition, hfinding, insert_without hnodup hchildren hindex⟩

/-- The end of a choice. -/
def choiceEnd : Node := ⟨⟨"6", .endIf, [], false, false⟩, .nil⟩

/-- A loop that chooses between counting and leaving. -/
def choosingLoop : Block := .ofNodes [
  ⟨⟨"1", .whileLoop, ["more"], false, false⟩, .ofNodes [
    ⟨⟨"2", .ifThen, ["odd"], false, false⟩,
      .ofNodes [⟨⟨"3", .increment, ["n", "1"], false, false⟩, .nil⟩]⟩,
    ⟨⟨"4", .elseIf, ["last"], false, false⟩,
      .ofNodes [⟨⟨"5", .breakLoop, [], false, false⟩, .nil⟩]⟩,
    choiceEnd,
    ⟨⟨"7", .output, ["n"], false, false⟩, .nil⟩]⟩,
  ⟨⟨"8", .endWhile, [], false, false⟩, .nil⟩]

/-- The second condition misses the end of the choice, and the loop around it is in order. -/
theorem validate_remove_closing_choosingLoop :
    choosingLoop.validate = [] ∧
      ∃ parent children before previous rest position,
        choosingLoop.children? parent = some children ∧ children[before]? = some previous ∧
          children[before + 1]? = some choiceEnd ∧ choosingLoop.remove "6" = .ok rest ∧
          rest.outline.position? previous.head.id = some position ∧
          rest.validate = [⟨position + 1, previous.head.id,
            .missingSuccessor previous.head.kind⟩] ∧
          rest.insert parent (before + 1) choiceEnd = .ok choosingLoop := by
  have hvalid : choosingLoop.validate = [] := by decide +kernel
  have hclosing : choiceEnd ∈ choosingLoop.preorder := List.mem_of_getElem? (i := 5) rfl
  exact ⟨hvalid, validate_remove_closing hvalid hclosing rfl⟩

/-- The second condition stands on line four. -/
example : (choosingLoop.without "6").validate = [⟨4, "4", .missingSuccessor .elseIf⟩] := by
  decide +kernel

end Block

end BlockCode
