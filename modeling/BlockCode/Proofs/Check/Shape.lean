/- # Checks and the shape of a program

Apart from the rule that no identifier occurs twice, the checks do not tell programs of the same
shape apart: at lines that correspond they see statements that differ at most in their
identifiers, and around such lines the tree is the same. So two programs of one shape with
distinct identifiers have the same findings, but for the identifiers in them.
-/

import BlockCode.Program.Shape
import BlockCode.Proofs.Check.Slots

namespace BlockCode

namespace Statement

@[simp]
theorem kind_shape (s : Statement) : s.shape.kind = s.kind := rfl

@[simp]
theorem slots_shape (s : Statement) : s.shape.slots = s.slots := rfl

@[simp]
theorem isConstant_shape (s : Statement) : s.shape.isConstant = s.isConstant := rfl

@[simp]
theorem slot_shape (s : Statement) (i : Nat) : s.shape.slot i = s.slot i := rfl

end Statement

/-- The shape of the item's statement. -/
def OutlineItem.shape (item : OutlineItem) : Statement :=
  item.statement.shape

/-- The finding without the identifier of its statement. -/
def Finding.anonymous (f : Finding) : Finding :=
  { f with id := "" }

/-- The surroundings of a statement without identifiers and editor marks. -/
def Spot.shape (spot : Spot) : Spot :=
  ⟨spot.head.shape, spot.body.shape, spot.ancestors.map Statement.shape,
    spot.previous.map Statement.shape, spot.next.map Statement.shape⟩

namespace Block

theorem statements_shape (b : Block) : b.shape.statements = b.statements.map Statement.shape := by
  induction b with
  | nil => rfl
  | cons head body next ihbody ihnext =>
      rw [statements, List.map_cons, List.map_append, ← ihbody, ← ihnext]
      rfl

theorem isEmpty_shape (b : Block) : b.shape.isEmpty = b.isEmpty := by
  cases b <;> rfl

theorem first?_shape (b : Block) : b.shape.first? = b.first?.map Statement.shape := by
  cases b <;> rfl

/-- The shape of a program has the shapes of its statements in the shapes of their
surroundings. -/
theorem spotsUnder_shape (b : Block) (ancestors : List Statement) (previous : Option Statement) :
    b.shape.spotsUnder (ancestors.map Statement.shape) (previous.map Statement.shape) =
      (b.spotsUnder ancestors previous).map Spot.shape := by
  induction b generalizing ancestors previous with
  | nil => rfl
  | cons head body next ihbody ihnext =>
      have hbody := ihbody (head :: ancestors) none
      have hnext := ihnext ancestors (some head)
      rw [spotsUnder, List.map_cons, List.map_append, ← hbody, ← hnext, Spot.shape,
        ← first?_shape]
      rfl

theorem map_shape_spots_eq {p q : Block} (h : p.shape = q.shape) :
    p.spots.map Spot.shape = q.spots.map Spot.shape := by
  have hp := spotsUnder_shape p [] none
  have hq := spotsUnder_shape q [] none
  rw [← h] at hq
  exact hp.symm.trans hq

theorem map_shape_outline (b : Block) :
    b.outline.map OutlineItem.shape = b.shape.statements := by
  rw [statements_shape, ← map_statement_outline, List.map_map]
  rfl

theorem functions_outline (b : Block) :
    b.outline.functions = b.shape.statements.filterMap Statement.definition? := by
  rw [← map_shape_outline, List.filterMap_map]
  rfl

end Block

namespace Line

/-- The lines look alike to every check but the one on identifiers. -/
structure Resembles (line other : Line) : Prop where
  statement : line.statement.shape = other.statement.shape
  before : line.before.map OutlineItem.shape = other.before.map OutlineItem.shape
  depth : line.item.depth = other.item.depth
  ancestors : line.ancestors.map OutlineItem.shape = other.ancestors.map OutlineItem.shape
  previous : line.previousSibling?.map OutlineItem.shape =
    other.previousSibling?.map OutlineItem.shape
  next : line.nextSibling?.map OutlineItem.shape = other.nextSibling?.map OutlineItem.shape
  body : line.hasBody = other.hasBody

namespace Resembles

variable {line other : Line} (h : line.Resembles other)

include h

/-- What does not depend on identifiers and editor marks is the same of both statements. -/
theorem statement_congr {α : Type} (f : Statement → α) (hf : ∀ s, f s.shape = f s) :
    f line.statement = f other.statement := by
  rw [← hf line.statement, h.statement, hf]

theorem kind_eq : line.kind = other.kind :=
  h.statement_congr Statement.kind Statement.kind_shape

theorem slots_eq : line.statement.slots = other.statement.slots :=
  h.statement_congr Statement.slots Statement.slots_shape

theorem slot_eq (i : Nat) : line.statement.slot i = other.statement.slot i :=
  h.statement_congr (fun s => s.slot i) fun s => s.slot_shape i

theorem successorFaults_eq : line.successorFaults = other.successorFaults := by
  have hnext (kinds : List StatementKind) :
      (line.nextSibling?.any fun next => kinds.contains next.statement.kind) =
        other.nextSibling?.any fun next => kinds.contains next.statement.kind := by
    have hany := congrArg (Option.any fun s : Statement => kinds.contains s.kind) h.next
    rwa [Option.any_map, Option.any_map] at hany
  rw [successorFaults, successorFaults, h.kind_eq]
  simp only [hnext]

theorem predecessorFaults_eq : line.predecessorFaults = other.predecessorFaults := by
  have hprevious (kinds : List StatementKind) :
      (line.previousSibling?.any fun previous => kinds.contains previous.statement.kind) =
        other.previousSibling?.any fun previous => kinds.contains previous.statement.kind := by
    have hany := congrArg (Option.any fun s : Statement => kinds.contains s.kind) h.previous
    rwa [Option.any_map, Option.any_map] at hany
  rw [predecessorFaults, predecessorFaults, h.kind_eq]
  simp only [hprevious]

theorem kindFaults_eq (functions : List FunctionSignature) :
    line.kindFaults functions = other.kindFaults functions := by
  have hloop : (line.ancestors.any fun item => item.statement.kind.isLoop) =
      other.ancestors.any fun item => item.statement.kind.isLoop := by
    have hany := congrArg (fun l : List Statement => l.any fun s => s.kind.isLoop) h.ancestors
    simp only [List.any_map] at hany
    exact hany
  have hbefore (name : String) :
      (line.before.findIdx? fun other =>
          other.statement.definition?.any fun f => f.name == name) =
        other.before.findIdx? fun other =>
          other.statement.definition?.any fun f => f.name == name := by
    have hfind := congrArg (List.findIdx? fun s : Statement =>
      s.definition?.any fun f => f.name == name) h.before
    rw [List.findIdx?_map, List.findIdx?_map] at hfind
    exact hfind
  simp only [kindFaults, breakFaults, definitionFaults, h.kind_eq, h.slot_eq, h.depth, hloop,
    hbefore]

theorem structureFaults_eq (functions : List FunctionSignature) :
    line.structureFaults functions = other.structureFaults functions := by
  have hbody : line.bodyFaults = other.bodyFaults := by
    rw [bodyFaults, bodyFaults, h.kind_eq, h.body]
  have hcount : line.slotCountFaults = other.slotCountFaults := by
    rw [slotCountFaults, slotCountFaults, h.kind_eq, h.slots_eq]
  rw [structureFaults, structureFaults, h.successorFaults_eq, h.predecessorFaults_eq, hbody, hcount,
    h.kindFaults_eq]

theorem constantFaults_eq : line.constantFaults = other.constantFaults := by
  have hwritten : line.statement.writtenName? = other.statement.writtenName? :=
    h.statement_congr Statement.writtenName? fun _ => rfl
  have hbefore (name : String) :
      (line.before.any fun earlier => earlier.statement.declaredConstant? == some name) =
        other.before.any fun earlier => earlier.statement.declaredConstant? == some name := by
    have hany := congrArg (fun l : List Statement =>
      l.any fun s => s.declaredConstant? == some name) h.before
    simp only [List.any_map] at hany
    exact hany
  rw [constantFaults, constantFaults, hwritten]
  simp only [hbefore]

theorem expressionFaults_eq (functions : List FunctionSignature) :
    line.expressionFaults functions = other.expressionFaults functions := by
  have hread : line.statement.readSlot = other.statement.readSlot :=
    h.statement_congr Statement.readSlot fun _ => rfl
  have hslots : line.statement.expressionSlots = other.statement.expressionSlots :=
    h.statement_congr Statement.expressionSlots fun _ => rfl
  have hslot : line.slotFaults functions = other.slotFaults functions := by
    funext slot
    rw [slotFaults, slotFaults, h.kind_eq, hread, h.slot_eq]
  rw [expressionFaults, expressionFaults, h.slots_eq, hslots, hslot]

/-- A fault is the same finding of both lines, but for the identifier. -/
theorem anonymous_finding_eq (fault : Fault) :
    (line.finding fault).anonymous = (other.finding fault).anonymous := by
  have hlength := congrArg List.length h.before
  rw [List.length_map, List.length_map] at hlength
  rw [finding, finding, number, number, hlength]
  rfl

/-- Where no identifier has occurred before, the lines have the same faults. -/
theorem faults_eq (functions : List FunctionSignature) (hline : line.idFaults = [])
    (hother : other.idFaults = []) : line.faults functions = other.faults functions := by
  rw [faults, faults, hline, hother, h.structureFaults_eq, h.constantFaults_eq,
    h.expressionFaults_eq]

end Resembles

/-- Lines that agree with surroundings of one shape, behind statements of the same shapes,
resemble each other. -/
theorem Agrees.resembles {line other : Line} {spot spot' : Spot} (h : line.Agrees spot)
    (h' : other.Agrees spot') (hshape : spot.shape = spot'.shape)
    (hbefore : line.before.map OutlineItem.shape = other.before.map OutlineItem.shape) :
    line.Resembles other := by
  have hshapes (items : Outline) :
      items.map OutlineItem.shape = (items.map OutlineItem.statement).map Statement.shape := by
    rw [List.map_map]
    rfl
  have hshape? (item : Option OutlineItem) :
      item.map OutlineItem.shape = (item.map OutlineItem.statement).map Statement.shape := by
    rw [Option.map_map]
    rfl
  have hancestors := congrArg Spot.ancestors hshape
  have hbody : spot.body.isEmpty = spot'.body.isEmpty := by
    rw [← Block.isEmpty_shape spot.body, ← Block.isEmpty_shape spot'.body]
    exact congrArg (fun spot => spot.body.isEmpty) hshape
  constructor
  · rw [h.statement, h'.statement]
    exact congrArg Spot.head hshape
  · exact hbefore
  · rw [h.depth, h'.depth]
    have hlength := congrArg List.length hancestors
    rwa [Spot.shape, Spot.shape, List.length_map, List.length_map] at hlength
  · rw [hshapes, hshapes, h.ancestors, h'.ancestors]
    exact hancestors
  · rw [hshape?, hshape?, h.previous, h'.previous]
    exact congrArg Spot.previous hshape
  · rw [hshape?, hshape?, h.next, h'.next]
    exact congrArg Spot.next hshape
  · rw [h.body, h'.body, hbody]

end Line

namespace Outline

/-- The line at a position has in front of it what the list has in front of the position. -/
theorem before_of_getElem?_linesFrom {before items : Outline} {i : Nat} {line : Line}
    (h : (linesFrom before items)[i]? = some line) : line.before = before ++ items.take i := by
  induction items generalizing before i with
  | nil => cases h
  | cons item items ih =>
      cases i with
      | zero =>
          cases h
          simp
      | succ i =>
          rw [linesFrom, List.getElem?_cons_succ] at h
          rw [ih h, List.take_succ_cons, List.append_assoc, List.singleton_append]

end Outline

namespace Block

/-- In a program with distinct identifiers no line finds its identifier above it. -/
theorem idFaults_eq_nil {program : Block} (hnodup : program.ids.Nodup) {line : Line}
    (h : line ∈ program.outline.lines) : line.idFaults = [] := by
  have hids : line.item.id ∉ line.before.map OutlineItem.id := by
    rw [← map_id_outline] at hnodup
    have hbefore : (([] : Outline).map OutlineItem.id).Nodup := List.nodup_nil
    exact (Outline.forall_linesFrom_iff hbefore).mpr hnodup line h
  rw [Line.idFaults]
  cases hposition : line.before.position? line.item.id with
  | none => rfl
  | some first =>
      rw [← Outline.position?_isSome, hposition] at hids
      exact absurd rfl hids

/-- The line at a position agrees with the surroundings at that position. -/
theorem exists_agrees_of_getElem? {program : Block} (hnodup : program.ids.Nodup) {i : Nat}
    {line : Line} (hline : program.outline.lines[i]? = some line) :
    ∃ spot, program.spots[i]? = some spot ∧ line.Agrees spot := by
  obtain ⟨hlength, hagrees⟩ := List.forall₂_iff_get.mp (agrees_lines hnodup)
  obtain ⟨hi, rfl⟩ := List.getElem?_eq_some_iff.mp hline
  have hi' : i < program.spots.length := hlength ▸ hi
  exact ⟨program.spots[i], List.getElem?_eq_getElem hi', hagrees i hi hi'⟩

/-- Lines at the same position of programs of one shape resemble each other. -/
theorem resembles_of_getElem? {p q : Block} (hshape : p.shape = q.shape) (hp : p.ids.Nodup)
    (hq : q.ids.Nodup) {i : Nat} {line other : Line} (hline : p.outline.lines[i]? = some line)
    (hother : q.outline.lines[i]? = some other) : line.Resembles other := by
  obtain ⟨spot, hspot, hagrees⟩ := exists_agrees_of_getElem? hp hline
  obtain ⟨spot', hspot', hagrees'⟩ := exists_agrees_of_getElem? hq hother
  apply hagrees.resembles hagrees'
  · have hspots := congrArg (fun spots : List Spot => spots[i]?) (map_shape_spots_eq hshape)
    simpa [hspot, hspot'] using hspots
  · rw [Outline.before_of_getElem?_linesFrom hline, Outline.before_of_getElem?_linesFrom hother,
      List.nil_append, List.nil_append, List.map_take, List.map_take, map_shape_outline,
      map_shape_outline, hshape]

/-- The findings of two programs of one shape with distinct identifiers differ at most in the
identifiers of the statements: they are about the same lines and say the same of them. -/
theorem map_anonymous_validate_eq {p q : Block} (hshape : p.shape = q.shape) (hp : p.ids.Nodup)
    (hq : q.ids.Nodup) :
    p.validate.map Finding.anonymous = q.validate.map Finding.anonymous := by
  have hfunctions : p.outline.functions = q.outline.functions := by
    rw [functions_outline, functions_outline, hshape]
  have hlength : p.outline.lines.length = q.outline.lines.length := by
    rw [(agrees_lines hp).length_eq, (agrees_lines hq).length_eq, ← List.length_map Spot.shape,
      map_shape_spots_eq hshape, List.length_map]
  have hlines : (p.outline.lines.map fun line =>
      ((line.faults q.outline.functions).map line.finding).map Finding.anonymous) =
        q.outline.lines.map fun line =>
          ((line.faults q.outline.functions).map line.finding).map Finding.anonymous := by
    apply List.ext_getElem (by rw [List.length_map, List.length_map, hlength])
    intro i hi hi'
    rw [List.length_map] at hi hi'
    rw [List.getElem_map, List.getElem_map]
    have hresembles := resembles_of_getElem? hshape hp hq (List.getElem?_eq_getElem hi)
      (List.getElem?_eq_getElem hi')
    rw [hresembles.faults_eq _ (idFaults_eq_nil hp (List.getElem_mem hi))
      (idFaults_eq_nil hq (List.getElem_mem hi')), List.map_map, List.map_map]
    apply List.map_congr_left
    intro fault _
    exact hresembles.anonymous_finding_eq fault
  rw [validate, validate, Outline.findings, Outline.findings, List.map_flatMap, List.map_flatMap,
    List.flatMap_def, List.flatMap_def, hfunctions, hlines]

/-- So one of them has a finding if the other has one. -/
theorem validate_eq_nil_of_shape_eq {p q : Block} (hshape : p.shape = q.shape)
    (hp : p.ids.Nodup) (hvalid : q.validate = []) : p.validate = [] := by
  have hq : q.ids.Nodup := (wellFormed_of_validate hvalid).distinct
  have hfindings := map_anonymous_validate_eq hshape hp hq
  rwa [hvalid, List.map_nil, List.map_eq_nil_iff] at hfindings

end Block

end BlockCode
