/- # The rules on structure and the tree

The rules on identifiers, neighbours, bodies, breaks and definitions look at one line of the
outline at a time. Together they accept exactly the programs whose tree has the right form: with
distinct identifiers, lists made of single statements and complete blocks, bodies only where they
belong, breaks in loops and definitions at the top.
-/

import BlockCode.Check.Validate
import BlockCode.Proofs.Check.Chain
import BlockCode.Proofs.Check.Surroundings

namespace BlockCode

/-- The statement agrees with its neighbours, owns lines only if its kind may, leaves a loop if it
is a break, and stands at the top if it is a definition. -/
structure Spot.Sound (spot : Spot) : Prop where
  leads : spot.head.kind.LeadsTo (spot.next.map Statement.kind)
  follows : spot.head.kind.Follows (spot.previous.map Statement.kind)
  scoping : spot.body ≠ .nil → spot.head.kind.isScoping = true
  loop : spot.head.kind = .breakLoop → ∃ ancestor ∈ spot.ancestors, ancestor.kind.isLoop = true
  root : spot.head.kind = .defineFunction → spot.ancestors = []

/-- Whether the fault is one of the form of a program, as opposed to what its slots hold. -/
def Fault.isStructural : Fault → Bool
  | .duplicateId .. | .missingSuccessor _ | .missingPredecessor _ | .childrenNotAllowed
  | .breakOutsideLoop | .nestedFunction _ => true
  | _ => false

/-- No fault of the list is one of the form of a program. -/
def Formed (faults : List Fault) : Prop :=
  ∀ fault ∈ faults, fault.isStructural = false

theorem formed_append {faults faults' : List Fault} :
    Formed (faults ++ faults') ↔ Formed faults ∧ Formed faults' := by
  simp only [Formed, List.mem_append]
  constructor
  · intro h
    exact ⟨fun fault hfault => h fault (.inl hfault), fun fault hfault => h fault (.inr hfault)⟩
  · rintro ⟨h, h'⟩ fault (hfault | hfault)
    · exact h fault hfault
    · exact h' fault hfault

theorem formed_flatMap {α : Type} {items : List α} {faults : α → List Fault}
    (h : ∀ item ∈ items, Formed (faults item)) : Formed (items.flatMap faults) := by
  intro fault hfault
  obtain ⟨item, hitem, hmem⟩ := List.mem_flatMap.mp hfault
  exact h item hitem fault hmem

/-- One fault that is given where a condition fails. -/
theorem formed_ite {c : Prop} [Decidable c] {fault : Fault} (hfault : fault.isStructural = true) :
    Formed (if c then [] else [fault]) ↔ c := by
  by_cases hc : c
  · simp [Formed, hc]
  · simp [Formed, hc, hfault]

namespace Line

variable {functions : List FunctionSignature} {line : Line}

theorem formed_idFaults :
    Formed line.idFaults ↔ line.item.id ∉ line.before.map OutlineItem.id := by
  rw [← Outline.position?_isSome, idFaults]
  cases line.before.position? line.item.id with
  | none => simp [Formed]
  | some first => simp [Formed, Fault.isStructural]

theorem formed_successorFaults :
    Formed line.successorFaults ↔
      line.kind.LeadsTo (line.nextSibling?.map fun item => item.statement.kind) := by
  rw [successorFaults, StatementKind.LeadsTo]
  cases line.kind.successors? with
  | none => simp [Formed]
  | some kinds =>
      dsimp only
      rw [formed_ite rfl, Option.all_some, Option.any_map]

theorem formed_predecessorFaults :
    Formed line.predecessorFaults ↔
      line.kind.Follows (line.previousSibling?.map fun item => item.statement.kind) := by
  rw [predecessorFaults, StatementKind.Follows]
  cases line.kind.predecessors? with
  | none => simp [Formed]
  | some kinds =>
      dsimp only
      rw [formed_ite rfl, Option.all_some, Option.any_map]

theorem formed_bodyFaults :
    Formed line.bodyFaults ↔ (line.hasBody = true → line.kind.isScoping = true) := by
  rw [bodyFaults]
  cases line.kind.isScoping <;> cases line.hasBody <;> simp [Formed, Fault.isStructural]

theorem formed_callFaults (name : String) (found : Nat) :
    Formed (callFaults functions name found) := by
  rw [callFaults]
  split
  · simp [Formed, Fault.isStructural]
  · split <;> simp [Formed, Fault.isStructural]

theorem formed_definitionFaults : Formed line.definitionFaults ↔ line.item.depth = 0 := by
  have hnested (name : String) :
      Formed (if line.item.depth > 0 then [.nestedFunction name] else []) ↔
        line.item.depth = 0 := by
    by_cases hdepth : line.item.depth = 0
    · simp [Formed, hdepth]
    · simp [Formed, hdepth, Nat.pos_of_ne_zero hdepth, Fault.isStructural]
  rw [definitionFaults, formed_append, hnested]
  apply and_iff_left
  split <;> simp [Formed, Fault.isStructural]

/-- Of the rules that only some kinds have, those on breaks and on where functions are defined
concern the form. -/
theorem formed_kindFaults :
    Formed (line.kindFaults functions) ↔
      (line.kind = .breakLoop →
        (line.ancestors.any fun item => item.statement.kind.isLoop) = true) ∧
      (line.kind = .defineFunction → line.item.depth = 0) := by
  rw [kindFaults]
  split
  · rename_i hkind
    rw [breakFaults, formed_ite rfl, hkind]
    simp
  · rename_i hkind
    rw [formed_definitionFaults, hkind]
    simp
  · rename_i hkind
    simp [formed_callFaults, hkind]
  · rename_i hbreak hdefine _
    refine iff_of_true (by simp [Formed]) ⟨fun hkind => ?_, fun hkind => ?_⟩
    · exact (hbreak hkind).elim
    · exact (hdefine hkind).elim

theorem formed_slotCountFaults : Formed line.slotCountFaults := by
  rw [slotCountFaults]
  split
  · split <;> simp [Formed, Fault.isStructural]
  · split <;> simp [Formed, Fault.isStructural]

theorem formed_constantFaults : Formed line.constantFaults := by
  rw [constantFaults]
  split
  · simp [Formed]
  · split <;> simp [Formed, Fault.isStructural]

theorem formed_slotFaults (slot : Nat) : Formed (line.slotFaults functions slot) := by
  rw [slotFaults]
  split
  · simp [Formed, Fault.isStructural]
  · apply formed_flatMap
    intro e _
    refine formed_append.mpr ⟨?_, ?_⟩
    · split <;> simp [Formed, Fault.isStructural]
    · apply formed_flatMap
      intro part _
      split
      · exact formed_callFaults _ _
      · simp [Formed]

/-- The faults of the expressions are not about the form. -/
theorem formed_expressionFaults : Formed (line.expressionFaults functions) := by
  rw [expressionFaults]
  split
  · exact formed_flatMap fun slot _ => formed_slotFaults slot
  · intro fault hfault
    obtain ⟨e, _, rfl⟩ := List.mem_map.mp hfault
    rfl

/-- What the faults of a line say about the form, where the line agrees with a place in the
tree. -/
theorem Agrees.formed_faults {spot : Spot} (h : line.Agrees spot) :
    Formed (line.faults functions) ↔
      line.item.id ∉ line.before.map OutlineItem.id ∧ spot.Sound := by
  have hkind : line.kind = spot.head.kind := congrArg Statement.kind h.statement
  have hnext : (line.nextSibling?.map fun item => item.statement.kind) =
      spot.next.map Statement.kind := by
    rw [← h.next, Option.map_map]
    rfl
  have hprevious : (line.previousSibling?.map fun item => item.statement.kind) =
      spot.previous.map Statement.kind := by
    rw [← h.previous, Option.map_map]
    rfl
  have hbody : line.hasBody = true ↔ spot.body ≠ .nil := by
    rw [h.body]
    cases spot.body <;> simp [Block.isEmpty]
  have hloop : (line.ancestors.any fun item => item.statement.kind.isLoop) = true ↔
      ∃ ancestor ∈ spot.ancestors, ancestor.kind.isLoop = true := by
    rw [← h.ancestors, List.any_eq_true]
    simp
  have hdepth : line.item.depth = 0 ↔ spot.ancestors = [] := by
    rw [h.depth, List.length_eq_zero_iff]
  rw [faults, structureFaults]
  simp only [formed_append, formed_idFaults, formed_successorFaults, formed_predecessorFaults,
    formed_bodyFaults, formed_slotCountFaults, formed_kindFaults, formed_constantFaults,
    formed_expressionFaults, and_true, hkind, hnext, hprevious, hbody, hloop, hdepth]
  constructor
  · rintro ⟨hid, ⟨⟨hleads, hfollows⟩, hscoping⟩, hbreak, hdefine⟩
    exact ⟨hid, hleads, hfollows, hscoping, hbreak, hdefine⟩
  · rintro ⟨hid, hsound⟩
    exact ⟨hid, ⟨⟨hsound.leads, hsound.follows⟩, hsound.scoping⟩, hsound.loop, hsound.root⟩

end Line

namespace Outline

/-- No identifier of a part of an outline occurs earlier when all identifiers are distinct. -/
theorem forall_linesFrom_iff {before items : Outline}
    (hbefore : (before.map OutlineItem.id).Nodup) :
    (∀ line ∈ linesFrom before items, line.item.id ∉ line.before.map OutlineItem.id) ↔
      ((before ++ items).map OutlineItem.id).Nodup := by
  induction items generalizing before with
  | nil => simpa [linesFrom] using hbefore
  | cons item items ih =>
      rw [linesFrom, List.forall_mem_cons]
      by_cases hid : item.id ∈ before.map OutlineItem.id
      · refine iff_of_false (fun h => h.1 hid) (fun hnodup => ?_)
        rw [List.map_append, List.nodup_append] at hnodup
        exact hnodup.2.2 _ hid _ (by simp) rfl
      · have hnodup : ((before ++ [item]).map OutlineItem.id).Nodup := by
          rw [List.map_append, List.map_singleton, List.nodup_append_comm, List.singleton_append,
            List.nodup_cons]
          exact ⟨hid, hbefore⟩
        rw [ih hnodup, List.append_assoc, List.singleton_append]
        exact and_iff_right hid

end Outline

namespace Block

/-- The kinds of the statements of the block itself. -/
def kinds (b : Block) : List StatementKind :=
  b.nodes.map fun node => node.head.kind

theorem head?_kinds (b : Block) : b.kinds.head? = b.first?.map Statement.kind := by
  cases b <;> rfl

/-- What the rules on structure ask of a program, said of its tree. -/
structure WellFormed (program : Block) : Prop where
  distinct : program.ids.Nodup
  /-- The statements at the top are single ones and complete blocks. -/
  top : Siblings program.kinds
  /-- So are those nested under any statement. -/
  nested : ∀ spot ∈ program.spots, Siblings spot.body.kinds
  scoping : ∀ spot ∈ program.spots, spot.body ≠ .nil → spot.head.kind.isScoping = true
  loop : ∀ spot ∈ program.spots, spot.head.kind = .breakLoop →
    ∃ ancestor ∈ spot.ancestors, ancestor.kind.isLoop = true
  root : ∀ spot ∈ program.spots, spot.head.kind = .defineFunction → spot.ancestors = []

/-- All neighbours agree when they do in the list itself and in every list nested under it. -/
theorem forall_neighbours_iff {b : Block} {ancestors : List Statement}
    {previous : Option Statement} :
    (∀ spot ∈ b.spotsUnder ancestors previous,
        spot.head.kind.LeadsTo (spot.next.map Statement.kind) ∧
          spot.head.kind.Follows (spot.previous.map Statement.kind)) ↔
      Linked (previous.map Statement.kind) b.kinds ∧
        ∀ spot ∈ b.spotsUnder ancestors previous, Linked none spot.body.kinds := by
  induction b generalizing ancestors previous with
  | nil => simp [spotsUnder, kinds, nodes, Linked]
  | cons head body next ihbody ihnext =>
      have hnext : (next.first?.map Statement.kind) = next.kinds.head? := (head?_kinds next).symm
      have hkinds : (Block.cons head body next).kinds = head.kind :: next.kinds := rfl
      rw [spotsUnder, List.forall_mem_cons, List.forall_mem_append, ihbody, ihnext,
        List.forall_mem_cons, List.forall_mem_append, hkinds, Linked, hnext, Option.map_some,
        Option.map_none]
      constructor
      · rintro ⟨⟨hleads, hfollows⟩, ⟨hbody, hinner⟩, hrest, hafter⟩
        exact ⟨⟨hleads, hfollows, hrest⟩, hbody, hinner, hafter⟩
      · rintro ⟨⟨hleads, hfollows, hrest⟩, hbody, hinner, hafter⟩
        exact ⟨⟨hleads, hfollows⟩, ⟨hbody, hinner⟩, hrest, hafter⟩

/-- A program has the right form when its identifiers are distinct and every statement is sound
in its surroundings. -/
theorem wellFormed_iff {program : Block} :
    program.WellFormed ↔ program.ids.Nodup ∧ ∀ spot ∈ program.spots, spot.Sound := by
  have hneighbours : (∀ spot ∈ program.spots,
      spot.head.kind.LeadsTo (spot.next.map Statement.kind) ∧
        spot.head.kind.Follows (spot.previous.map Statement.kind)) ↔
      Siblings program.kinds ∧ ∀ spot ∈ program.spots, Siblings spot.body.kinds := by
    simp only [← linked_iff_siblings]
    exact forall_neighbours_iff
  constructor
  · intro h
    refine ⟨h.distinct, fun spot hspot => ?_⟩
    obtain ⟨hleads, hfollows⟩ := hneighbours.mpr ⟨h.top, h.nested⟩ spot hspot
    exact ⟨hleads, hfollows, h.scoping spot hspot, h.loop spot hspot, h.root spot hspot⟩
  · rintro ⟨hnodup, hsound⟩
    obtain ⟨htop, hnested⟩ := hneighbours.mp fun spot hspot =>
      ⟨(hsound spot hspot).leads, (hsound spot hspot).follows⟩
    exact ⟨hnodup, htop, hnested, fun spot hspot => (hsound spot hspot).scoping,
      fun spot hspot => (hsound spot hspot).loop, fun spot hspot => (hsound spot hspot).root⟩

/-- Where lines and surroundings correspond, a property of all lines is one of all
surroundings. -/
theorem forall_mem_iff_of_forall₂ {lines : List Line} {spots : List Spot} {P : Line → Prop}
    {Q : Spot → Prop} (h : List.Forall₂ (fun line spot => P line ↔ Q spot) lines spots) :
    (∀ line ∈ lines, P line) ↔ ∀ spot ∈ spots, Q spot := by
  induction h with
  | nil => simp
  | cons hfirst _ ih => rw [List.forall_mem_cons, List.forall_mem_cons, hfirst, ih]

/-- No line has a fault of the form when the program has the right form. -/
theorem forall_formed_faults_iff {program : Block} {functions : List FunctionSignature} :
    (∀ line ∈ program.outline.lines, Formed (line.faults functions)) ↔ program.WellFormed := by
  have hids : (∀ line ∈ program.outline.lines,
      line.item.id ∉ line.before.map OutlineItem.id) ↔ program.ids.Nodup := by
    rw [← map_id_outline program]
    exact Outline.forall_linesFrom_iff List.nodup_nil
  by_cases hnodup : program.ids.Nodup
  · rw [wellFormed_iff, and_iff_right hnodup]
    apply forall_mem_iff_of_forall₂
    have hdistinct := hids.mpr hnodup
    have hagrees := agrees_lines hnodup
    rw [List.forall₂_iff_zip] at hagrees ⊢
    refine ⟨hagrees.1, fun hzip => ?_⟩
    rw [(hagrees.2 hzip).formed_faults]
    exact and_iff_right (hdistinct _ (List.of_mem_zip hzip).1)
  · refine iff_of_false (fun h => hnodup (hids.mp fun line hline => ?_))
      (fun h => hnodup h.distinct)
    have hfaults := h line hline
    rw [Line.faults, formed_append, formed_append, formed_append] at hfaults
    exact Line.formed_idFaults.mp hfaults.1.1.1

/-- The rules on structure, which look at lines and their neighbours, accept a program exactly
when its tree has the right form. -/
theorem validate_decides_wellFormed (program : Block) :
    (∀ finding ∈ program.validate, finding.fault.isStructural = false) ↔
      program.WellFormed := by
  rw [← forall_formed_faults_iff]
  constructor
  · intro h line hline fault hfault
    apply h (line.finding fault)
    rw [validate, Outline.findings, List.mem_flatMap]
    exact ⟨line, hline, List.mem_map_of_mem hfault⟩
  · intro h finding hfinding
    rw [validate, Outline.findings, List.mem_flatMap] at hfinding
    obtain ⟨line, hline, hmem⟩ := hfinding
    obtain ⟨fault, hfault, rfl⟩ := List.mem_map.mp hmem
    exact h line hline fault hfault

end Block

end BlockCode
