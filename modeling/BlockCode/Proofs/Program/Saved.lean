/- # Loading what was saved

A saved program loads back as it was: every identifier and slot with all of its characters, every
mark whether set or not, and every nesting, as long as it is not too deep. A level of nesting takes
a list and an object of the saved form, and the slots of the innermost statement take one more
list, so that one level less than half of what the reader allows is where loading ends.
-/

import BlockCode.Program.Saved
import BlockCode.Proofs.Json.Reading

namespace BlockCode

namespace Block

/-- How many lists of nested statements there are one inside another. -/
def childLevels : Block → Nat
  | .nil => 0
  | .cons _ body next => max (if body.isEmpty then 0 else body.childLevels + 1) next.childLevels

/-- Nothing that is saved is a number. -/
theorem plain_of_mem_savedNodes (b : Block) : ∀ node ∈ b.savedNodes, node.Plain := by
  induction b with
  | nil => simp [savedNodes]
  | cons head body next ihbody ihnext =>
      rw [savedNodes, List.forall_mem_cons]
      refine ⟨.object ?_, ihnext⟩
      have hslots : (Json.array (head.slots.map .ofString)).Plain := by
        apply Json.Plain.array
        intro item hitem
        obtain ⟨text, _, rfl⟩ := List.mem_map.mp hitem
        exact .text text
      intro member hmember
      simp only [Statement.savedMembers, List.mem_append, List.mem_cons, List.not_mem_nil,
        or_false] at hmember
      rcases hmember with (((rfl | rfl | rfl) | hmember) | hmember) | hmember
      · exact .text head.id
      · exact .text head.kind.key
      · exact hslots
      · split at hmember
        · rw [List.mem_singleton.mp hmember]
          exact .bool true
        · cases hmember
      · split at hmember
        · rw [List.mem_singleton.mp hmember]
          exact .bool true
        · cases hmember
      · split at hmember
        · cases hmember
        · rw [List.mem_singleton.mp hmember]
          exact .array ihbody

theorem read?_save (b : Block) : Json.read? b.save = some b.toJson :=
  Json.read?_layout (.array b.plain_of_mem_savedNodes)

end Block

namespace Saved

theorem readKind?_key (nesting : Nat) (kind : StatementKind) :
    readKind? nesting (.ofString kind.key) = some kind := by
  have hkeys : ∀ kind ∈ StatementKind.all, StatementKind.ofKey? kind.key = some kind := by
    decide +kernel
  exact hkeys kind kind.mem_all

theorem readSlots?_ofString (nesting : Nat) (slots : List String) :
    readSlots? nesting (.array (slots.map .ofString)) =
      if nesting = 0 then none else some slots := by
  have hslots : (slots.map Json.ofString).mapM readText? = some slots := by
    induction slots with
    | nil => rfl
    | cons slot slots ih =>
        rw [List.map_cons, List.mapM_cons, ih]
        rfl
  rw [readSlots?, hslots]
  simp only [beq_iff_eq]

/-- A saved statement has its fields where they are looked for. Marks that are not set and an
empty body are missing. -/
theorem nodeFields?_savedMembers (s : Statement) (body : List Json) :
    nodeFields? (.ofMembers (s.savedMembers body)) =
      some [some (.ofString s.id), some (.ofString s.kind.key),
        some (.array (s.slots.map .ofString)),
        if s.isConstant then some (.bool true) else none,
        if s.collapsed then some (.bool true) else none,
        if body.isEmpty then none else some (.array body)] := by
  rw [Statement.savedMembers]
  cases s.isConstant <;> cases s.collapsed <;> cases body.isEmpty <;> rfl

theorem readBlock?_array_nil (nesting : Nat) :
    readBlock? (nesting + 1) (.array []) = some .nil := by
  cases nesting <;> rfl

/-- A list of nodes is read node by node. -/
theorem readBlock?_array_cons (nesting : Nat) (value : Json) (values : List Json) :
    readBlock? (nesting + 2) (.array (value :: values)) = do
      let rest ← readBlock? (nesting + 2) (.array values)
      let fields ← nodeFields? value
      let [some id, some kind, slots, isConstant, collapsed, body] := fields | none
      let head : Statement :=
        { id := ← readText? id
          kind := ← readKind? nesting kind
          slots := ← readOr [] (readSlots? nesting) slots
          isConstant := ← readOr false readMark? isConstant
          collapsed := ← readOr false readMark? collapsed }
      return .cons head (← readOr .nil (readBlock? nesting) body) rest := by
  cases values with
  | nil => rfl
  | cons => rfl

/-- A saved statement is read with its body, unless its slots are too deep. -/
theorem readBlock?_savedNodes_cons (nesting : Nat) (head : Statement) (body next : Block) :
    readBlock? (nesting + 2) (.array (Block.cons head body next).savedNodes) =
      (readBlock? (nesting + 2) (.array next.savedNodes)).bind fun rest =>
        if nesting = 0 then none
        else (readBlock? nesting (.array body.savedNodes)).map fun inner =>
          .cons head inner rest := by
  have hmark (set : Bool) :
      readOr false readMark? (if set then some (.bool true) else none) = some set := by
    cases set <;> rfl
  have hslots : readOr [] (readSlots? nesting) (some (.array (head.slots.map .ofString))) =
      if nesting = 0 then none else some head.slots :=
    readSlots?_ofString nesting head.slots
  rw [Block.savedNodes, readBlock?_array_cons]
  congr 1
  funext rest
  simp only [nodeFields?_savedMembers, bind, Option.bind, hmark, readKind?_key, hslots]
  simp only [readText?, Json.ofString]
  cases nesting with
  | zero => rfl
  | succ nesting =>
      have hbody : readOr .nil (readBlock? (nesting + 1))
          (if body.savedNodes.isEmpty then none else some (.array body.savedNodes)) =
            readBlock? (nesting + 1) (.array body.savedNodes) := by
        cases body with
        | nil => exact (readBlock?_array_nil nesting).symm
        | cons => rfl
      rw [hbody]
      cases readBlock? (nesting + 1) (.array body.savedNodes) <;> rfl

/-- A saved block that is not nested too deep is read back. -/
theorem readBlock?_savedNodes {nesting : Nat} {b : Block} (h : 2 * b.childLevels + 3 ≤ nesting) :
    readBlock? nesting (.array b.savedNodes) = some b := by
  induction b generalizing nesting with
  | nil =>
      obtain ⟨nesting, rfl⟩ := Nat.exists_eq_add_of_le' h
      exact readBlock?_array_nil (nesting + 2)
  | cons head body next ihbody ihnext =>
      rw [Block.childLevels] at h
      obtain ⟨nesting, rfl⟩ := Nat.exists_eq_add_of_le' (show 3 ≤ nesting by omega)
      have hbody : readBlock? (nesting + 1) (.array body.savedNodes) = some body := by
        cases body with
        | nil => exact readBlock?_array_nil nesting
        | cons =>
            apply ihbody
            rw [Block.isEmpty, if_neg Bool.false_ne_true] at h
            omega
      rw [readBlock?_savedNodes_cons, ihnext (by omega), hbody]
      rfl

/-- A saved block that is nested too deep is refused. -/
theorem readBlock?_savedNodes_eq_none {nesting : Nat} {b : Block} (hb : b.isEmpty = false)
    (h : nesting < 2 * b.childLevels + 3) : readBlock? nesting (.array b.savedNodes) = none := by
  induction b generalizing nesting with
  | nil => cases hb
  | cons head body next ihbody ihnext =>
      match nesting with
      | 0 | 1 => rfl
      | nesting + 2 =>
          rw [readBlock?_savedNodes_cons]
          by_cases hzero : nesting = 0
          · simp [hzero]
          rw [Block.childLevels] at h
          -- The depth is that of what is nested under the statement, or of what follows it.
          by_cases hdeep : nesting + 2 < 2 * next.childLevels + 3
          · have hnext : next.isEmpty = false := by
              cases next with
              | nil => simp only [Block.childLevels] at hdeep; omega
              | cons => rfl
            rw [ihnext hnext hdeep]
            rfl
          · have hbody : body.isEmpty = false ∧ nesting < 2 * body.childLevels + 3 := by
              cases hempty : body.isEmpty with
              | true => rw [hempty, if_pos rfl] at h; omega
              | false => rw [hempty, if_neg Bool.false_ne_true] at h; exact ⟨rfl, by omega⟩
            rw [ihbody hbody.1 hbody.2]
            simp

end Saved

namespace Block

/-- A saved program is loaded from its nodes. -/
theorem load?_save (program : Block) :
    load? program.save = Saved.readBlock? 127 (.array program.savedNodes) := by
  rw [load?, read?_save]
  rfl

/-- A saved program loads back as it was if and only if at most 62 lists of nested statements are
one inside another. -/
theorem load?_save_eq_some_iff (program : Block) :
    load? program.save = some program ↔ program.childLevels ≤ 62 := by
  rw [load?_save]
  constructor
  · intro hread
    rcases Nat.lt_or_ge 62 program.childLevels with hdeep | hlevels
    · have hempty : program.isEmpty = false := by
        cases program with
        | nil => exact absurd hdeep (Nat.not_lt_zero 62)
        | cons => rfl
      rw [Saved.readBlock?_savedNodes_eq_none hempty (by omega)] at hread
      cases hread
    · exact hlevels
  · intro hlevels
    exact Saved.readBlock?_savedNodes (by omega)

/-- A statement under the given number of regions. -/
def nestedRegions : Nat → Block
  | 0 => .cons ⟨"0", .output, ["1"], false, false⟩ .nil .nil
  | levels + 1 =>
    .cons ⟨toString (levels + 1), .region, ["r"], false, false⟩ (nestedRegions levels) .nil

theorem isEmpty_nestedRegions (levels : Nat) : (nestedRegions levels).isEmpty = false := by
  cases levels <;> rfl

theorem childLevels_nestedRegions (levels : Nat) :
    (nestedRegions levels).childLevels = levels := by
  induction levels with
  | zero => rfl
  | succ levels ih =>
      rw [nestedRegions, childLevels, isEmpty_nestedRegions, if_neg Bool.false_ne_true, ih]
      rfl

/-- A statement under 63 regions is saved, but its text is not loaded any more. -/
theorem load?_save_nestedRegions :
    (nestedRegions 63).childLevels = 63 ∧ load? (nestedRegions 63).save = none := by
  refine ⟨childLevels_nestedRegions 63, ?_⟩
  rw [load?_save]
  apply Saved.readBlock?_savedNodes_eq_none (isEmpty_nestedRegions 63)
  rw [childLevels_nestedRegions]
  decide

end Block

end BlockCode
