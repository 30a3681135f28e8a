/- # Lines laid out along the tree

Rendering goes through the statements of a list with a stack of open lines. In a program of the
right form the stack never matters beyond its top: at any point of a list either no block is open
or exactly one is, and then the next statement goes on with it or closes it. The lines of a program
are therefore described along its tree, with the header that is still open, and without a stack.

The description leaves open what the lines of a single statement look like. It says where they
stand, what is around them and with which header they are read.
-/

import BlockCode.Proofs.Check.Slots
import BlockCode.Proofs.Outcome
import BlockCode.Proofs.Target.Openers
import BlockCode.Target.Render

namespace BlockCode

namespace StatementKind

/-- How far in stands what is nested under a statement of the kind. A region leaves its statements
where they are. -/
def depthInside (kind : StatementKind) (depth : Nat) : Nat :=
  if kind = .region then depth else depth + 1

theorem isPlain_or_opensBlock {kind : StatementKind} (h : kind.predecessors? = none) :
    kind.isPlain = true ∨ kind.opensBlock = true := by
  revert h
  cases kind <;> decide

theorem isScoping_of_isPlain {kind : StatementKind} (h : kind.isPlain = true) :
    kind.isScoping = false := by
  revert h
  cases kind <;> decide

theorem isScoping_of_opensBlock {kind : StatementKind} (h : kind.opensBlock = true) :
    kind.isScoping = true := by
  revert h
  cases kind <;> decide

theorem isScoping_of_continuesBlock {kind : StatementKind} (h : kind.continuesBlock = true) :
    kind.isScoping = true := by
  revert h
  cases kind <;> decide

theorem opensBlock_of_isPlain {kind : StatementKind} (h : kind.isPlain = true) :
    kind.opensBlock = false ∧ kind.closesBlock = false := by
  revert h
  cases kind <;> decide

theorem closesBlock_of_opensBlock {kind : StatementKind} (h : kind.opensBlock = true) :
    kind.closesBlock = false ∧ kind.successors? ≠ none := by
  revert h
  cases kind <;> decide

/-- What may come where a block is open goes on with a choice, or closes a block with such a
header. -/
theorem continues_or_closes {kind next : StatementKind} {kinds : List StatementKind}
    (hkinds : kind.successors? = some kinds) (hmem : next ∈ kinds) :
    (next.continuesBlock = true ∧ kind.opening = .ifThen) ∨
      (next.closesBlock = true ∧ next.Follows (some kind.opening)) := by
  revert hmem
  cases kind <;> cases hkinds <;> cases next <;> decide

/-- A statement that goes on with a choice leaves the choice open. -/
theorem opening_eq_ifThen {kind : StatementKind} (h : kind.continuesBlock = true) :
    kind.opening = .ifThen ∧ kind.successors? ≠ none := by
  revert h
  cases kind <;> decide

end StatementKind

/-- The kind of the statements with the action. -/
def Action.kind : Action → StatementKind
  | .assign .. => .assign
  | .initializeArray .. => .initializeArray
  | .fillArray .. => .bulkAssign
  | .change .up .. => .increment
  | .change .down .. => .decrement
  | .output _ => .output
  | .ifThen _ => .ifThen
  | .elseIf _ => .elseIf
  | .otherwise => .otherwise
  | .endIf => .endIf
  | .whileLoop _ => .whileLoop
  | .endWhile => .endWhile
  | .doWhile => .doWhile
  | .endDoWhile _ => .endDoWhile
  | .count .up .. => .forIncrement
  | .count .down .. => .forDecrement
  | .endCount _ => .endFor
  | .defineFunction .. => .defineFunction
  | .endFunction => .endFunction
  | .callFunction .. => .callFunction
  | .leaveLoop _ => .breakLoop
  | .region _ => .region
  | .endRegion _ => .endRegion

/-- A statement has the action of its kind. -/
theorem Statement.kind_of_action {s : Statement} {target : Target} {loop? : Option StatementKind}
    {header? : Option Statement} {action : Action}
    (h : s.action target loop? header? = .ok action) : action.kind = s.kind := by
  obtain ⟨id, kind, slots, isConstant, collapsed⟩ := s
  unfold Statement.action at h
  cases kind with
  | otherwise | endIf | endWhile | doWhile | endFunction | breakLoop | region =>
      cases h
      rfl
  | output | ifThen | elseIf | whileLoop | endFor | defineFunction | callFunction | endRegion =>
      obtain ⟨_, _, h⟩ := bind_eq_ok_iff.mp h
      cases h
      rfl
  | assign | initializeArray | bulkAssign | increment | decrement | endDoWhile =>
      obtain ⟨_, _, h⟩ := bind_eq_ok_iff.mp h
      obtain ⟨_, _, h⟩ := bind_eq_ok_iff.mp h
      cases h
      rfl
  | forIncrement | forDecrement =>
      obtain ⟨_, _, h⟩ := bind_eq_ok_iff.mp h
      obtain ⟨_, _, h⟩ := bind_eq_ok_iff.mp h
      obtain ⟨_, _, h⟩ := bind_eq_ok_iff.mp h
      obtain ⟨_, _, h⟩ := bind_eq_ok_iff.mp h
      cases h
      rfl

theorem Statement.kind_of_isCountingLoop {s : Statement} (hkind : s.kind.isCountingLoop = true) :
    s.kind = .forIncrement ∨ s.kind = .forDecrement := by
  revert hkind
  cases s.kind <;> simp [StatementKind.isCountingLoop]

/-- The header of a counting loop counts, with what its four slots are read as. -/
theorem Statement.exists_count_of_action {s : Statement} {target : Target}
    {loop? : Option StatementKind} {header? : Option Statement} {action : Action}
    (hkind : s.kind.isCountingLoop = true) (h : s.action target loop? header? = .ok action) :
    ∃ counter first last step, s.exprIn 0 = .ok counter ∧ s.exprIn 1 = .ok first ∧
      s.exprIn 2 = .ok last ∧ s.exprIn 3 = .ok step ∧
      action = .count s.direction counter first last step := by
  have hcount : s.action target loop? header? = (do
      return .count s.direction (← s.exprIn 0) (← s.exprIn 1) (← s.exprIn 2) (← s.exprIn 3)) := by
    rw [Statement.action]
    rcases kind_of_isCountingLoop hkind with hloop | hloop <;> rw [hloop]
  rw [hcount] at h
  obtain ⟨counter, hcounter, h⟩ := bind_eq_ok_iff.mp h
  obtain ⟨first, hfirst, h⟩ := bind_eq_ok_iff.mp h
  obtain ⟨last, hlast, h⟩ := bind_eq_ok_iff.mp h
  obtain ⟨step, hstep, ⟨⟩⟩ := bind_eq_ok_iff.mp h
  exact ⟨counter, first, last, step, hcounter, hfirst, hlast, hstep, rfl⟩

namespace CodeLine

/-- The line as it stands in the text, without the line feed at its end. -/
def row (width : Nat) (line : CodeLine) : String :=
  if line.text.isEmpty then ""
  else String.ofList (List.replicate (line.depth * width) ' ') ++ line.text

theorem layout_eq (width : Nat) (line : CodeLine) : line.layout width = line.row width ++ "\n" :=
  rfl

end CodeLine

/-- What is added to the lines of a body that has no code. -/
def Target.fillerLines (target : Target) (kind : StatementKind) (depth : Nat)
    (body : List CodeLine) : List CodeLine :=
  if body.any CodeLine.isCode then []
  else ((target.emptyBody? kind).map (CodeLine.indent depth)).toList

/-- A condition on the lines of one statement: at a depth, under statements of the given kinds with
the innermost first, and read with a header if it closes a block. -/
abbrev LineCondition :=
  (depth : Nat) → (around : List StatementKind) → (header? : Option Statement) → Statement →
    List CodeLine → Prop

/-- The statement is rendered to the lines. -/
def Statement.Emits (target : Target) (spellings? : Option Spellings) : LineCondition :=
  fun depth around header? s lines =>
    ∃ action own,
      s.action target (around.find? StatementKind.isLoop) header? = .ok action ∧
      target.lines spellings? action = .ok own ∧ lines = own.map (.indent depth)

/-- The lines are those of the statements of a block, in order, each with the lines of what is
nested under it. The first argument is the header of the block of lines that is open in front of
the first statement. -/
inductive Laid (target : Target) (Own : LineCondition) :
    Option Statement → Nat → List StatementKind → Block → List CodeLine → Prop
  | nil (depth : Nat) (around : List StatementKind) : Laid target Own none depth around .nil []
  /-- A single statement. -/
  | plain {depth : Nat} {around : List StatementKind} {s : Statement} {next : Block}
      {own rest : List CodeLine} (hkind : s.kind.isPlain = true)
      (hown : Own depth around none s own) (hnext : Laid target Own none depth around next rest) :
      Laid target Own none depth around (.cons s .nil next) (own ++ rest)
  /-- A header, whose block is open behind it. -/
  | header {depth : Nat} {around : List StatementKind} {s : Statement} {body next : Block}
      {own inner rest : List CodeLine} (hkind : s.kind.opensBlock = true)
      (hown : Own depth around none s own)
      (hbody : Laid target Own none (s.kind.depthInside depth) (s.kind :: around) body inner)
      (hnext : Laid target Own (some s) depth around next rest) :
      Laid target Own none depth around (.cons s body next)
        (own ++ (inner ++ target.fillerLines s.kind (s.kind.depthInside depth) inner) ++ rest)
  /-- A further alternative of a choice. -/
  | alternative {depth : Nat} {around : List StatementKind} {header s : Statement}
      {body next : Block} {own inner rest : List CodeLine} (hheader : header.kind = .ifThen)
      (hkind : s.kind.continuesBlock = true)
      (hleads : s.kind.LeadsTo (next.first?.map Statement.kind))
      (hown : Own depth around none s own)
      (hbody : Laid target Own none (s.kind.depthInside depth) (s.kind :: around) body inner)
      (hnext : Laid target Own (some header) depth around next rest) :
      Laid target Own (some header) depth around (.cons s body next)
        (own ++ (inner ++ target.fillerLines s.kind (s.kind.depthInside depth) inner) ++ rest)
  /-- The statement that closes the block of the header, and is read with it. -/
  | closing {depth : Nat} {around : List StatementKind} {header s : Statement} {next : Block}
      {own rest : List CodeLine} (hkind : s.kind.closesBlock = true)
      (hfits : s.kind.Follows (some header.kind)) (hown : Own depth around (some header) s own)
      (hnext : Laid target Own none depth around next rest) :
      Laid target Own (some header) depth around (.cons s .nil next) (own ++ rest)

namespace Block

/-- Lines are nested only under statements that may own some. -/
def Scoped : Block → Prop
  | .nil => True
  | .cons head body next =>
    (body ≠ .nil → head.kind.isScoping = true) ∧ body.Scoped ∧ next.Scoped

theorem scoped_of_forall_spots {b : Block} {ancestors : List Statement}
    {previous : Option Statement}
    (h : ∀ spot ∈ b.spotsUnder ancestors previous,
      spot.body ≠ .nil → spot.head.kind.isScoping = true) : b.Scoped := by
  induction b generalizing ancestors previous with
  | nil => trivial
  | cons head body next ihbody ihnext =>
      rw [spotsUnder, List.forall_mem_cons, List.forall_mem_append] at h
      exact ⟨h.1, ihbody h.2.1, ihnext h.2.2⟩

theorem WellFormed.scoped {program : Block} (h : program.WellFormed) : program.Scoped :=
  scoped_of_forall_spots h.scoping

theorem Scoped.body_eq_nil {head : Statement} {body next : Block}
    (h : (cons head body next).Scoped) (hkind : head.kind.isScoping = false) : body = .nil := by
  by_contra hbody
  rw [h.1 hbody] at hkind
  cases hkind

theorem Scoped.splitFunctions {b : Block} (h : b.Scoped) (inFunction : Bool) :
    (b.splitFunctions inFunction).1.Scoped ∧ (b.splitFunctions inFunction).2.Scoped := by
  induction b generalizing inFunction with
  | nil => exact ⟨trivial, trivial⟩
  | cons head body next _ ihnext =>
      obtain ⟨hhead, hbody, hnext⟩ := h
      rw [Block.splitFunctions]
      split
      · exact ⟨⟨hhead, hbody, (ihnext hnext _).1⟩, (ihnext hnext _).2⟩
      · exact ⟨(ihnext hnext _).1, hhead, hbody, (ihnext hnext _).2⟩

end Block

/-- The header whose block is open behind the statement in front of a list, if one is open, is on
top of the open lines. -/
def OpenHeader (previous : Option StatementKind) (openers : List Statement) :
    Option Statement → Prop
  | none => Settled previous
  | some header =>
    openers.head? = some header ∧
      ∃ kind ∈ previous, kind.successors? ≠ none ∧ kind.opening = header.kind

section Passages

variable {target : Target} {spellings? : Option Spellings} {depth : Nat}
  {around : List StatementKind}

theorem Statement.emits_of_passage {s : Statement} {openers : List Statement} {passage : Passage}
    (h : s.passage target spellings? ⟨depth, around.find? StatementKind.isLoop⟩ openers =
      .ok passage) :
    s.Emits target spellings? depth around (s.opener? openers) passage.lines := by
  rw [Statement.passage] at h
  obtain ⟨action, haction, h⟩ := bind_eq_ok_iff.mp h
  obtain ⟨own, hown, h⟩ := bind_eq_ok_iff.mp h
  cases h
  exact ⟨action, own, haction, mapError_eq_ok_iff.mp hown, rfl⟩

theorem Place.inside_eq (kind : StatementKind) :
    Place.inside ⟨depth, around.find? StatementKind.isLoop⟩ kind =
      ⟨kind.depthInside depth, (kind :: around).find? StatementKind.isLoop⟩ := by
  rw [Place.inside, StatementKind.depthInside, List.find?_cons]
  cases hkind : kind.isLoop <;> simp

theorem flatMap_lines_filler (kind : StatementKind) (body : List Passage) :
    (target.filler kind depth body).flatMap Passage.lines =
      target.fillerLines kind depth (body.flatMap Passage.lines) := by
  have hcode : (body.flatMap Passage.lines).any CodeLine.isCode = body.any Passage.hasCode := by
    rw [List.any_flatMap]
    rfl
  rw [Target.filler, Target.fillerLines, hcode]
  split
  · rfl
  · cases target.emptyBody? kind <;> rfl

namespace Block

variable {head : Statement} {body next : Block} {openers : List Statement}
  {passages : List Passage}

/-- The passages of a block begin with those of its first statement. -/
theorem passages_cons_eq_ok
    (h : (cons head body next).passages target spellings?
      ⟨depth, around.find? StatementKind.isLoop⟩ openers = .ok passages) :
    ∃ own nested rest,
      head.Emits target spellings? depth around (head.opener? openers) own ∧
      (head.kind.isScoping = true →
        ∃ inner, body.passages target spellings?
            ⟨head.kind.depthInside depth, (head.kind :: around).find? StatementKind.isLoop⟩ [] =
            .ok inner ∧
          nested = inner.flatMap Passage.lines ++
            target.fillerLines head.kind (head.kind.depthInside depth)
              (inner.flatMap Passage.lines)) ∧
      (head.kind.isScoping = false → nested = []) ∧
      next.passages target spellings? ⟨depth, around.find? StatementKind.isLoop⟩
        (head.openersBehind openers) = .ok rest ∧
      passages.flatMap Passage.lines = own ++ nested ++ rest.flatMap Passage.lines := by
  rw [Block.passages] at h
  dsimp only at h
  obtain ⟨own, hown, h⟩ := bind_eq_ok_iff.mp h
  split at h
  · rename_i hscoping
    obtain ⟨inner, hinner, h⟩ := bind_eq_ok_iff.mp h
    obtain ⟨nested, hnested, h⟩ := bind_eq_ok_iff.mp h
    obtain ⟨rest, hrest, h⟩ := bind_eq_ok_iff.mp h
    cases hnested
    cases h
    rw [Place.inside_eq] at hinner ⊢
    refine ⟨own.lines, _, rest, head.emits_of_passage hown, fun _ => ⟨inner, hinner, rfl⟩, ?_,
      hrest, ?_⟩
    · intro hscoping'
      rw [hscoping] at hscoping'
      cases hscoping'
    · simp only [List.cons_append, List.flatMap_cons, List.flatMap_append, flatMap_lines_filler,
        List.append_assoc]
  · rename_i hscoping
    obtain ⟨nested, hnested, h⟩ := bind_eq_ok_iff.mp h
    obtain ⟨rest, hrest, h⟩ := bind_eq_ok_iff.mp h
    cases hnested
    cases h
    refine ⟨own.lines, [], rest, head.emits_of_passage hown, fun hscoping' => ?_, fun _ => rfl,
      hrest, ?_⟩
    · exact absurd hscoping' hscoping
    · rw [List.append_nil, List.cons_append, List.flatMap_cons, List.nil_append]

/-- The lines of a block of the right form are laid out along its tree. -/
theorem laid_of_passages {b : Block} {previous : Option StatementKind}
    {header? : Option Statement} (hb : b.Orderly previous) (hscoped : b.Scoped)
    (hleads : ∀ kind ∈ previous, kind.LeadsTo (b.first?.map Statement.kind))
    (hopen : OpenHeader previous openers header?)
    (h : b.passages target spellings? ⟨depth, around.find? StatementKind.isLoop⟩ openers =
      .ok passages) :
    Laid target (Statement.Emits target spellings?) header? depth around b
      (passages.flatMap Passage.lines) := by
  induction b generalizing previous openers header? depth around passages with
  | nil =>
      cases h
      cases header? with
      | none => exact .nil depth around
      | some header =>
          -- A block that is open is not at the end of its list.
          obtain ⟨_, kind, hkind, hsuccessors, _⟩ := hopen
          obtain ⟨kinds, hkinds⟩ := Option.ne_none_iff_exists'.mp hsuccessors
          obtain ⟨_, hnone, _⟩ := (hleads kind hkind).exists_mem hkinds
          cases hnone
  | cons head body next ihbody ihnext =>
      obtain ⟨hhead, hfollows, hbodyOrderly, hnextOrderly⟩ := hb
      obtain ⟨own, nested, rest, hown, hnested, hnone, hrest, hlines⟩ := passages_cons_eq_ok h
      have hleads' : ∀ kind ∈ some head.kind, kind.LeadsTo (next.first?.map Statement.kind) := by
        rintro kind ⟨⟩
        exact hhead
      have laidBody (hkind : head.kind.isScoping = true) : ∃ inner,
          Laid target (Statement.Emits target spellings?) none (head.kind.depthInside depth)
              (head.kind :: around) body inner ∧
            nested = inner ++ target.fillerLines head.kind (head.kind.depthInside depth) inner := by
        obtain ⟨inner, hinner, hnested⟩ := hnested hkind
        exact ⟨_, ihbody hbodyOrderly hscoped.2.1 (by simp) settled_none hinner, hnested⟩
      have laidNext {header? : Option Statement}
          (hopen : OpenHeader (some head.kind) (head.openersBehind openers) header?) :
          Laid target (Statement.Emits target spellings?) header? depth around next
            (rest.flatMap Passage.lines) :=
        ihnext hnextOrderly hscoped.2.2 hleads' hopen hrest
      rw [hlines]
      cases header? with
      | none =>
          have hpredecessors := Settled.predecessors?_eq_none hopen hfollows
          rcases StatementKind.isPlain_or_opensBlock hpredecessors with hkind | hkind
          · obtain rfl := hscoped.body_eq_nil (StatementKind.isScoping_of_isPlain hkind)
            obtain ⟨hopens, hcloses⟩ := StatementKind.opensBlock_of_isPlain hkind
            rw [Statement.opener?, hcloses, if_neg Bool.false_ne_true] at hown
            rw [hnone (StatementKind.isScoping_of_isPlain hkind), List.append_nil]
            exact .plain hkind hown (laidNext
              (settled_some (StatementKind.successors?_eq_none_of_isPlain hkind).1))
          · obtain ⟨hcloses, hsuccessors⟩ := StatementKind.closesBlock_of_opensBlock hkind
            obtain ⟨inner, hinner, rfl⟩ := laidBody (StatementKind.isScoping_of_opensBlock hkind)
            rw [Statement.opener?, hcloses, if_neg Bool.false_ne_true] at hown
            refine .header hkind hown hinner (laidNext ⟨?_, head.kind, rfl, hsuccessors, ?_⟩)
            · rw [Statement.openersBehind, if_pos hkind]
              rfl
            · exact StatementKind.opening_of_opensBlock hkind
      | some header =>
          obtain ⟨htop, kind, hkind, hsuccessors, hopening⟩ := hopen
          obtain ⟨kinds, hkinds⟩ := Option.ne_none_iff_exists'.mp hsuccessors
          obtain ⟨other, hother, hmem⟩ := (hleads kind hkind).exists_mem hkinds
          cases hother
          rcases StatementKind.continues_or_closes hkinds hmem with
            ⟨hcontinues, hchoice⟩ | ⟨hcloses, hfits⟩
          · obtain ⟨hopens, hcloses, _⟩ := StatementKind.opening_of_continuesBlock hcontinues
            obtain ⟨hopening', hsuccessors'⟩ := StatementKind.opening_eq_ifThen hcontinues
            obtain ⟨inner, hinner, rfl⟩ :=
              laidBody (StatementKind.isScoping_of_continuesBlock hcontinues)
            rw [Statement.opener?, hcloses, if_neg Bool.false_ne_true] at hown
            have hheader : header.kind = .ifThen := hopening.symm.trans hchoice
            refine .alternative hheader hcontinues hhead hown hinner
              (laidNext ⟨?_, head.kind, rfl, hsuccessors', hopening'.trans hheader.symm⟩)
            rw [Statement.openersBehind, hopens, hcloses, if_neg Bool.false_ne_true,
              if_neg Bool.false_ne_true]
            exact htop
          · obtain rfl := hscoped.body_eq_nil (StatementKind.isScoping_of_closesBlock hcloses)
            obtain ⟨hopens, hnext⟩ := StatementKind.opensBlock_of_closesBlock hcloses
            rw [Statement.opener?, if_pos hcloses, htop] at hown
            rw [hnone (StatementKind.isScoping_of_closesBlock hcloses), List.append_nil]
            exact .closing hcloses (hopening ▸ hfits) hown (laidNext (settled_some hnext))

/-- The lines of a whole program, or of a part of one that stands on its own. -/
theorem laid_of_passages_nil {b : Block} (hb : b.Orderly none) (hscoped : b.Scoped)
    (h : b.passages target spellings? { depth := depth } [] = .ok passages) :
    Laid target (Statement.Emits target spellings?) none depth [] b
      (passages.flatMap Passage.lines) :=
  laid_of_passages hb hscoped (by simp) settled_none h

end Block

end Passages

end BlockCode
