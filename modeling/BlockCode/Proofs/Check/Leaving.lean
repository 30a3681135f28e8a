/- # A statement is taken out

When a statement with nothing nested under it leaves a program, every other statement keeps what it
is nested under. Something nested under it may go, but nothing comes. Its neighbours change only
where the statement that left was one of them, and then it has the next one instead. So a line that
had no fault can only get one that is about its neighbours.
-/

import BlockCode.Proofs.Check.Shape
import BlockCode.Proofs.Program.Places

namespace BlockCode

/-! ## What surrounds the other statements -/

/-- What becomes of the surroundings of a statement when another one, `gone`, is taken out. -/
structure Spot.Loses (gone spot left : Spot) : Prop where
  head : left.head = spot.head
  ancestors : left.ancestors = spot.ancestors
  body : left.body ≠ .nil → spot.body ≠ .nil
  previous : spot.previous ≠ some gone.head → left.previous = spot.previous
  next : left.next = if spot.next = some gone.head then gone.next else spot.next

namespace Block

theorem map_head_spotsUnder (b : Block) (ancestors : List Statement) (previous : Option Statement) :
    (b.spotsUnder ancestors previous).map Spot.head = b.statements := by
  induction b generalizing ancestors previous with
  | nil => rfl
  | cons head body next ihbody ihnext =>
      rw [spotsUnder, statements, List.map_cons, List.map_append, ihbody, ihnext]

theorem first?_mem_statements {b : Block} {s : Statement} (h : b.first? = some s) :
    s ∈ b.statements := by
  cases b with
  | nil => cases h
  | cons head body next =>
      cases h
      exact .head _

/-- The next one of a statement is a statement whose previous one it is. -/
theorem exists_spot_of_next {b : Block} {ancestors : List Statement} {previous : Option Statement}
    {spot : Spot} {s : Statement} (hspot : spot ∈ b.spotsUnder ancestors previous)
    (hnext : spot.next = some s) :
    ∃ other ∈ b.spotsUnder ancestors previous, other.head = s ∧
      other.previous = some spot.head := by
  induction b generalizing ancestors previous with
  | nil => cases hspot
  | cons head body next ihbody ihnext =>
      rw [spotsUnder, List.mem_cons, List.mem_append] at hspot
      rw [spotsUnder]
      rcases hspot with rfl | hspot | hspot
      · cases next with
        | nil => cases hnext
        | cons first inner rest =>
            cases hnext
            exact ⟨_, .tail _ (List.mem_append_right _ (.head _)), rfl, rfl⟩
      · obtain ⟨other, hother, hfacts⟩ := ihbody hspot
        exact ⟨other, .tail _ (List.mem_append_left _ hother), hfacts⟩
      · obtain ⟨other, hother, hfacts⟩ := ihnext hspot
        exact ⟨other, .tail _ (List.mem_append_right _ hother), hfacts⟩

section Gone

variable {gone : Spot} {id : String}

/-- In a block without the statement nothing changes. -/
theorem forall₂_loses_self {b : Block} (hid : gone.head.id ∉ b.ids) (ancestors : List Statement)
    (previous : Option Statement) :
    List.Forall₂ gone.Loses (b.spotsUnder ancestors previous)
      (b.spotsUnder ancestors previous) := by
  rw [List.forall₂_same]
  intro spot hspot
  have hnext : spot.next ≠ some gone.head := by
    intro hnext
    obtain ⟨other, hother, hhead, _⟩ := exists_spot_of_next hspot hnext
    have hmem := List.mem_map_of_mem (f := Spot.head) hother
    rw [map_head_spotsUnder, hhead] at hmem
    exact hid (List.mem_map_of_mem hmem)
  exact ⟨rfl, rfl, fun h => h, fun _ => rfl, (if_neg hnext).symm⟩

/-- Behind the statement that goes, the next one has another previous one. -/
theorem forall₂_loses_behind {b : Block} (hid : gone.head.id ∉ b.ids) (ancestors : List Statement)
    (previous : Option Statement) :
    List.Forall₂ gone.Loses (b.spotsUnder ancestors (some gone.head))
      (b.spotsUnder ancestors previous) := by
  cases b with
  | nil => exact .nil
  | cons head body next =>
      have hself := forall₂_loses_self hid ancestors (some gone.head)
      rw [spotsUnder, List.forall₂_cons] at hself
      rw [spotsUnder, spotsUnder]
      refine .cons ⟨rfl, rfl, fun h => h, fun hne => absurd rfl hne, hself.1.next⟩ hself.2

/-- Taking out a statement with nothing nested under it changes what surrounds the others only
where it was a neighbour. -/
theorem exists_spotsUnder_eq {b : Block} {node : Node} (hnodup : b.ids.Nodup)
    (hfind : b.find? id = some node) (hleaf : node.body = .nil) (ancestors : List Statement)
    (previous : Option Statement) :
    ∃ front gone back, b.spotsUnder ancestors previous = front ++ gone :: back ∧
      gone.head = node.head ∧
      List.Forall₂ gone.Loses (front ++ back) ((b.without id).spotsUnder ancestors previous) ∧
      (b.without id).first? = if b.first? = some gone.head then gone.next else b.first? := by
  have hid := (find?_spec hfind).1
  induction b generalizing ancestors previous with
  | nil => cases hfind
  | cons head body next ihbody ihnext =>
      obtain ⟨_, hnext, hnodupBody, hnodupNext, hdisjoint⟩ := nodup_ids_cons.mp hnodup
      rw [find?] at hfind
      split at hfind
      · next heq =>
        cases hfind
        obtain rfl : body = .nil := hleaf
        rw [without, if_pos hid]
        exact ⟨[], ⟨head, .nil, ancestors, previous, next.first?⟩,
          next.spotsUnder ancestors (some head), rfl, rfl,
          forall₂_loses_behind hnext ancestors previous, (if_pos rfl).symm⟩
      · next heq =>
        have hne : head.id ≠ id := by simpa using heq
        have hfirst {gone : Spot} (hgone : gone.head = node.head) : some head ≠ some gone.head := by
          rintro ⟨⟩
          exact hne (hgone ▸ hid)
        rw [without, if_neg hne, spotsUnder, spotsUnder]
        rcases Option.or_eq_some_iff.mp hfind with hfind | ⟨hnone, hfind⟩
        · obtain ⟨front, gone, back, hspots, hgone, hloses, _⟩ :=
            ihbody hnodupBody hfind (head :: ancestors) none
          have hmem : id ∈ body.ids := id_mem_of_find? hfind
          have hout : gone.head.id ∉ next.ids := by
            rw [hgone, hid]
            exact hdisjoint id hmem
          have hnextFirst : next.first? ≠ some gone.head := fun hfirst =>
            hout (List.mem_map_of_mem (first?_mem_statements hfirst))
          rw [without_eq_self (hdisjoint id hmem)]
          refine ⟨⟨head, body, ancestors, previous, next.first?⟩ :: front, gone,
            back ++ next.spotsUnder ancestors (some head), by rw [hspots]; simp, hgone, ?_,
            (if_neg (hfirst hgone)).symm⟩
          rw [List.cons_append, ← List.append_assoc]
          refine .cons ⟨rfl, rfl, ?_, fun _ => rfl, (if_neg hnextFirst).symm⟩
            (List.rel_append hloses (forall₂_loses_self hout ancestors (some head)))
          rintro hbody rfl
          exact hbody rfl
        · obtain ⟨front, gone, back, hspots, hgone, hloses, hnextFirst⟩ :=
            ihnext hnodupNext hfind ancestors (some head)
          have hmem : id ∉ body.ids := find?_eq_none_iff.mp hnone
          have hout : gone.head.id ∉ body.ids := by rwa [hgone, hid]
          rw [without_eq_self hmem]
          refine ⟨⟨head, body, ancestors, previous, next.first?⟩ ::
            (body.spotsUnder (head :: ancestors) none ++ front), gone, back,
            by rw [hspots]; simp, hgone, ?_, (if_neg (hfirst hgone)).symm⟩
          rw [List.cons_append, List.append_assoc]
          exact .cons ⟨rfl, rfl, fun h => h, fun _ => rfl, hnextFirst⟩
            (List.rel_append (forall₂_loses_self hout (head :: ancestors) none) hloses)

end Gone

end Block

/-! ## What is left of a line -/

/-- The line `left` is what the line becomes when another one is taken out, apart from its
neighbours. -/
structure Line.Remains (line left : Line) : Prop where
  statement : left.statement = line.statement
  before : left.before.map OutlineItem.statement ⊆ line.before.map OutlineItem.statement
  depth : left.item.depth = line.item.depth
  ancestors : left.ancestors.map OutlineItem.statement =
    line.ancestors.map OutlineItem.statement
  body : left.hasBody = true → line.hasBody = true

namespace Line.Remains

variable {line left : Line} {functions : List FunctionSignature} (h : line.Remains left)

include h

theorem kind_eq : left.kind = line.kind :=
  congrArg Statement.kind h.statement

theorem exists_before {item : OutlineItem} (hitem : item ∈ left.before) :
    ∃ other ∈ line.before, other.statement = item.statement :=
  List.mem_map.mp (h.before (List.mem_map_of_mem hitem))

theorem bodyFaults_eq_nil (hline : line.bodyFaults = []) : left.bodyFaults = [] := by
  rw [bodyFaults] at hline
  rw [bodyFaults, h.kind_eq]
  cases hbody : left.hasBody with
  | false => rw [Bool.and_false, if_neg Bool.false_ne_true]
  | true =>
      rw [h.body hbody] at hline
      exact hline

theorem breakFaults_eq : left.breakFaults = line.breakFaults := by
  have hloop := congrArg (fun l : List Statement => l.any fun s => s.kind.isLoop) h.ancestors
  simp only [List.any_map] at hloop
  exact congrArg (fun found : Bool => if found then [] else [Fault.breakOutsideLoop]) hloop

theorem definitionFaults_eq_nil (hline : line.definitionFaults = []) :
    left.definitionFaults = [] := by
  rw [definitionFaults, List.append_eq_nil_iff] at hline
  rw [definitionFaults, h.statement, h.depth, List.append_eq_nil_iff]
  refine ⟨hline.1, ?_⟩
  have hdouble := hline.2
  split at hdouble
  · cases hdouble
  · next hnone =>
    rw [List.findIdx?_eq_none_iff] at hnone
    rw [List.findIdx?_eq_none_iff.mpr]
    intro item hitem
    obtain ⟨other, hother, heq⟩ := h.exists_before hitem
    rw [← heq]
    exact hnone other hother

theorem kindFaults_eq_nil (hline : line.kindFaults functions = []) :
    left.kindFaults functions = [] := by
  rw [kindFaults] at hline
  rw [kindFaults, h.kind_eq]
  split at hline
  · exact h.breakFaults_eq.trans hline
  · exact h.definitionFaults_eq_nil hline
  · rw [h.statement]
    exact hline
  · rfl

theorem constantFaults_eq_nil (hline : line.constantFaults = []) : left.constantFaults = [] := by
  rw [constantFaults] at hline
  rw [constantFaults, h.statement]
  split at hline
  · rfl
  · split at hline
    · cases hline
    · next hnone =>
      rw [Bool.not_eq_true, List.any_eq_false] at hnone
      rw [if_neg]
      rw [Bool.not_eq_true, List.any_eq_false]
      intro item hitem
      obtain ⟨other, hother, heq⟩ := h.exists_before hitem
      rw [← heq]
      exact hnone other hother

theorem slotCountFaults_eq : left.slotCountFaults = line.slotCountFaults := by
  rw [slotCountFaults, slotCountFaults, h.kind_eq, h.statement]

theorem expressionFaults_eq :
    left.expressionFaults functions = line.expressionFaults functions := by
  have hslot : left.slotFaults functions = line.slotFaults functions := by
    funext slot
    rw [slotFaults, slotFaults, h.kind_eq, h.statement]
  rw [expressionFaults, expressionFaults, h.statement, hslot]

/-- Of a line without faults only its neighbours can be wrong afterwards. -/
theorem faults_eq (hline : line.faults functions = []) (hid : left.idFaults = []) :
    left.faults functions = left.successorFaults ++ left.predecessorFaults := by
  simp only [faults, structureFaults, List.append_eq_nil_iff] at hline
  obtain ⟨⟨⟨_, ⟨⟨⟨_, _⟩, hbody⟩, hcount⟩, hkind⟩, hconstant⟩, hexpression⟩ := hline
  rw [faults, structureFaults, hid, h.bodyFaults_eq_nil hbody, h.slotCountFaults_eq, hcount,
    h.kindFaults_eq_nil hkind, h.constantFaults_eq_nil hconstant, h.expressionFaults_eq,
    hexpression]
  simp

end Line.Remains

/-- Of two lists that correspond, what stands at a position of the second stands there in the
first. -/
theorem exists_getElem?_of_forall₂ {α β : Type} {R : α → β → Prop} {l : List α} {m : List β}
    {i : Nat} {y : β} (h : List.Forall₂ R l m) (hy : m[i]? = some y) :
    ∃ x, l[i]? = some x ∧ R x y := by
  induction h generalizing i with
  | nil => cases hy
  | cons hxy _ ih =>
      cases i with
      | zero =>
          cases hy
          exact ⟨_, rfl, hxy⟩
      | succ i => exact ih hy

/-- What stands somewhere in a list stands in the list with one more entry, behind the same entries
and perhaps that one. -/
theorem exists_getElem?_insert {α : Type} {front back : List α} {i : Nat} {y : α} (x : α)
    (h : (front ++ back)[i]? = some y) :
    ∃ j, (front ++ x :: back)[j]? = some y ∧
      ((front ++ back).take i).Sublist ((front ++ x :: back).take j) := by
  by_cases hlt : i < front.length
  · refine ⟨i, ?_, ?_⟩
    · rwa [List.getElem?_append_left hlt] at h ⊢
    · rw [List.take_append_of_le_length (Nat.le_of_lt hlt),
        List.take_append_of_le_length (Nat.le_of_lt hlt)]
  · obtain ⟨i, rfl⟩ := Nat.exists_eq_add_of_le (Nat.le_of_not_lt hlt)
    refine ⟨front.length + (i + 1), ?_, ?_⟩
    · rw [List.getElem?_append_right (Nat.le_add_right _ _), Nat.add_sub_cancel_left] at h ⊢
      exact h
    · rw [List.take_length_add_append, List.take_length_add_append, List.take_succ_cons]
      exact (List.sublist_cons_self _ _).append_left front

namespace Block

theorem map_head_eq_of_forall₂_loses {gone : Spot} {spots left : List Spot}
    (h : List.Forall₂ gone.Loses spots left) : left.map Spot.head = spots.map Spot.head := by
  induction h with
  | nil => rfl
  | cons hfirst _ ih => rw [List.map_cons, List.map_cons, hfirst.head, ih]

section Leaf

variable {program : Block} {id : String} {node : Node} (hnodup : program.ids.Nodup)
  (hfind : program.find? id = some node) (hleaf : node.body = .nil)

include hnodup hfind hleaf

theorem exists_statements_without :
    ∃ front back, program.statements = front ++ node.head :: back ∧
      (program.without id).statements = front ++ back := by
  obtain ⟨front, gone, back, hspots, hgone, hloses, _⟩ :=
    exists_spotsUnder_eq hnodup hfind hleaf [] none
  refine ⟨front.map Spot.head, back.map Spot.head, ?_, ?_⟩
  · rw [← map_head_spotsUnder program [] none, hspots, List.map_append, List.map_cons, hgone]
  · rw [← map_head_spotsUnder (program.without id) [] none, map_head_eq_of_forall₂_loses hloses,
      List.map_append]

/-- Without a statement that is no definition the program defines the same functions. -/
theorem functions_without (hdefinition : node.head.definition? = none) :
    (program.without id).outline.functions = program.outline.functions := by
  obtain ⟨front, back, hstatements, hleft⟩ := exists_statements_without hnodup hfind hleaf
  rw [functions_eq, functions_eq, hstatements, hleft, List.filterMap_append,
    List.filterMap_append, List.filterMap_cons_none hdefinition]

/-- When a statement with nothing nested under it is taken out, every other line is left of one of
the program, and its surroundings of those of that line. -/
theorem exists_gone :
    ∃ gone ∈ program.spots, gone.head = node.head ∧
      ∀ left ∈ (program.without id).outline.lines, ∃ line ∈ program.outline.lines,
        line.Remains left ∧ ∃ spot ∈ program.spots, ∃ spot', line.Agrees spot ∧
          left.Agrees spot' ∧ gone.Loses spot spot' := by
  obtain ⟨front, gone, back, hspots, hgone, hloses, _⟩ :=
    exists_spotsUnder_eq hnodup hfind hleaf [] none
  refine ⟨gone, by rw [spots, hspots]; simp, hgone, fun left hleft => ?_⟩
  obtain ⟨i, hi⟩ := List.mem_iff_getElem?.mp hleft
  obtain ⟨spot', hspot', hagrees'⟩ :=
    exists_agrees_of_getElem? ((ids_without_sublist program id).nodup hnodup) hi
  obtain ⟨spot, hspot, hloses'⟩ := exists_getElem?_of_forall₂ hloses hspot'
  obtain ⟨j, hj, hsublist⟩ := exists_getElem?_insert gone hspot
  rw [← hspots] at hj hsublist
  obtain ⟨line, hline, hagrees⟩ := exists_getElem?_of_forall₂ (agrees_lines hnodup) hj
  refine ⟨line, List.mem_of_getElem? hline, ⟨?_, ?_, ?_, ?_, ?_⟩, spot, List.mem_of_getElem? hj,
    spot', hagrees, hagrees', hloses'⟩
  · rw [hagrees'.statement, hagrees.statement, hloses'.head]
  · have hstatements := map_head_spotsUnder program [] none
    have hstatements' := map_head_spotsUnder (program.without id) [] none
    rw [map_head_eq_of_forall₂_loses hloses] at hstatements'
    rw [Outline.before_of_getElem?_linesFrom hi, Outline.before_of_getElem?_linesFrom hline,
      List.nil_append, List.nil_append, List.map_take, List.map_take, map_statement_outline,
      map_statement_outline, ← hstatements, ← hstatements', ← List.map_take, ← List.map_take]
    exact (hsublist.map Spot.head).subset
  · rw [hagrees'.depth, hagrees.depth, hloses'.ancestors]
  · rw [hagrees'.ancestors, hagrees.ancestors, hloses'.ancestors]
  · intro hbody
    have hne : spot'.body ≠ .nil := by
      intro hnil
      rw [hagrees'.body, hnil] at hbody
      cases hbody
    rw [hagrees.body]
    cases hnil : spot.body with
    | nil => exact absurd hnil (hloses'.body hne)
    | cons => rfl

end Leaf

end Block

end BlockCode
