/- # Lines that open and close blocks

JavaScript, Ruby and VBA close every block with a line of its own. A header and the line that closes
its block are neighbours among the statements of one list, and neither knows in the program where
the other is. In the lines of a rendering they belong together as parentheses do: what stands
between them is further in, or goes on with the same choice.

Which lines open and close a block is read off their texts, and so is the word that a block has to
be closed with. To say besides that these are the lines of a header and of its own closing
statement, each line of a rendering is taken with the statement it was made from. VBA puts functions
first and everything else in one procedure, whose two lines come from no statement.
-/

import BlockCode.Proofs.Program.WellFormed
import BlockCode.Proofs.Target.SingleLines

namespace BlockCode

/-- A line of a rendering and the statement that it was made from, in its surroundings. -/
structure SourcedLine where
  source? : Option Spot
  line : CodeLine

namespace SourcedLine

/-- What the line's statement is nested under. -/
def under? (l : SourcedLine) : Option (List Statement) :=
  l.source?.map Spot.ancestors

/-- The part that the line has in the blocks, by its text. -/
def mark (target : Target) (l : SourcedLine) : BlockMark :=
  target.blockMark l.line.text

/-- The line stands inside a block that was opened at the depth, or goes on with it. -/
def Inside (target : Target) (depth : Nat) (under? : Option (List Statement)) (l : SourcedLine) :
    Prop :=
  depth < l.line.depth ∨
    l.line.depth = depth ∧ l.mark target = .continuing ∧ l.under? = under?

theorem Inside.lt_or_continuing {target : Target} {depth : Nat} {under? : Option (List Statement)}
    {l : SourcedLine} (h : l.Inside target depth under?) :
    depth < l.line.depth ∨ l.mark target = .continuing :=
  h.imp id fun h => h.2.1

end SourcedLine

/-- What the line that closes a block says of the header. -/
structure Statement.Answers (target : Target) (spellings? : Option Spellings)
    (header closing : Statement) (opened closed : String) : Prop where
  fits : closing.kind.Follows (some header.kind)
  footer : closing.kind = .endDoWhile → ∃ condition, prepare (header.slot 0) = .ok condition ∧
    closed = target.doWhileFooter spellings? condition
  counter : target = .vba → closing.kind = .endFor → ∃ counter rest,
    prepare (header.slot 0) = .ok counter ∧
      opened = "For " ++ (Target.vba.printer spellings?).text counter ++ " = " ++ rest ∧
      closed = "Next " ++ (Target.vba.printer spellings?).text counter

/-- The second line closes the block that the first one opens, with the given lines between them.
Only in a choice does anything stand between them that is not further in. -/
structure Encloses (target : Target) (spellings? : Option Spellings) (o c : SourcedLine)
    (inner : List SourcedLine) : Prop where
  closer : ∃ word, o.mark target = .opening word ∧ c.mark target = .closing word
  depth : c.line.depth = o.line.depth
  siblings : c.under? = o.under?
  inside : ∀ l ∈ inner, l.Inside target o.line.depth o.under?
  choice : (∃ l ∈ inner, l.line.depth = o.line.depth) →
    ∃ header ∈ o.source?, header.head.kind = .ifThen
  answers : ∀ header ∈ o.source?, ∀ closing ∈ c.source?,
    header.head.Answers target spellings? closing.head o.line.text c.line.text

/-- Every line that opens a block is closed by exactly one line, and every line that closes a block
was opened by exactly one. -/
structure Nested (target : Target) (spellings? : Option Spellings) (lines : List SourcedLine) :
    Prop where
  closed : ∀ before o behind word, lines = before ++ o :: behind → o.mark target = .opening word →
    ∃! parts : List SourcedLine × SourcedLine × List SourcedLine,
      behind = parts.1 ++ parts.2.1 :: parts.2.2 ∧
        Encloses target spellings? o parts.2.1 parts.1
  opened : ∀ before c behind word, lines = before ++ c :: behind → c.mark target = .closing word →
    ∃! parts : List SourcedLine × SourcedLine × List SourcedLine,
      before = parts.1 ++ parts.2.1 :: parts.2.2 ∧
        Encloses target spellings? parts.2.1 c parts.2.2

section

variable {target : Target} {spellings? : Option Spellings} {o c : SourcedLine}
  {inner lines lines' : List SourcedLine}

namespace Encloses

theorem not_inside_closing {depth : Nat} {under? : Option (List Statement)}
    (h : Encloses target spellings? o c inner) (hdepth : depth = o.line.depth) :
    ¬ c.Inside target depth under? := by
  intro hinside
  obtain ⟨word, -, hclosing⟩ := h.closer
  rcases hinside.lt_or_continuing with hlt | hmark
  · rw [hdepth, h.depth] at hlt
    exact Nat.lt_irrefl _ hlt
  · rw [hclosing] at hmark
    cases hmark

theorem not_inside_opening {depth : Nat} {under? : Option (List Statement)}
    (h : Encloses target spellings? o c inner) (hdepth : depth = c.line.depth) :
    ¬ o.Inside target depth under? := by
  intro hinside
  obtain ⟨word, hopening, -⟩ := h.closer
  rcases hinside.lt_or_continuing with hlt | hmark
  · rw [hdepth, h.depth] at hlt
    exact Nat.lt_irrefl _ hlt
  · rw [hopening] at hmark
    cases hmark

/-- Only one line closes the block of a line. -/
theorem existsUnique_closing {rest : List SourcedLine} (h : Encloses target spellings? o c inner) :
    ∃! parts : List SourcedLine × SourcedLine × List SourcedLine,
      inner ++ c :: rest = parts.1 ++ parts.2.1 :: parts.2.2 ∧
        Encloses target spellings? o parts.2.1 parts.1 := by
  refine ⟨(inner, c, rest), ⟨rfl, h⟩, ?_⟩
  rintro ⟨inner', c', rest'⟩ ⟨heq, h'⟩
  dsimp only at heq h'
  rcases exists_append_of_append_eq heq with ⟨between, hinner', hbehind⟩ | ⟨between, hinner, _⟩
  · cases between with
    | nil =>
        cases hbehind
        rw [List.append_nil] at hinner'
        rw [hinner']
    | cons first between =>
        cases hbehind
        exact absurd (h'.inside c (by rw [hinner']; simp)) (h.not_inside_closing rfl)
  · exact absurd (h.inside c' (by rw [hinner]; simp)) (h'.not_inside_closing rfl)

/-- A line closes the block of only one line. -/
theorem existsUnique_opening {rest : List SourcedLine} (h : Encloses target spellings? o c inner) :
    ∃! parts : List SourcedLine × SourcedLine × List SourcedLine,
      rest ++ o :: inner = parts.1 ++ parts.2.1 :: parts.2.2 ∧
        Encloses target spellings? parts.2.1 c parts.2.2 := by
  refine ⟨(rest, o, inner), ⟨rfl, h⟩, ?_⟩
  rintro ⟨rest', o', inner'⟩ ⟨heq, h'⟩
  dsimp only at heq h'
  rcases exists_append_of_append_eq heq with ⟨between, hrest', hbehind⟩ | ⟨between, _, hinner'⟩
  · cases between with
    | nil =>
        cases hbehind
        rw [List.append_nil] at hrest'
        rw [hrest']
    | cons first between =>
        cases hbehind
        exact absurd (h.inside o' (by simp)) (h'.not_inside_opening h.depth.symm)
  · exact absurd (h'.inside o (by rw [hinner']; simp)) (h.not_inside_opening h'.depth.symm)

end Encloses

namespace Nested

theorem nil : Nested target spellings? [] := by
  constructor <;> intro before l behind word h <;> simp at h

/-- A line that neither opens nor closes a block. -/
theorem single (h : o.mark target = .plain ∨ o.mark target = .continuing) :
    Nested target spellings? [o] := by
  constructor
  all_goals
    intro before l behind word heq hmark
    obtain ⟨_, rfl, _⟩ := List.append_eq_singleton_iff.mp heq.symm |>.resolve_right (by simp)
    rw [hmark] at h
    simp at h

theorem append (h : Nested target spellings? lines) (h' : Nested target spellings? lines') :
    Nested target spellings? (lines ++ lines') := by
  constructor
  · intro before l behind word heq hmark
    rcases exists_append_of_append_eq heq with ⟨between, rfl, hlines'⟩ | ⟨between, hlines, rfl⟩
    · exact h'.closed between l behind word hlines' hmark
    · obtain ⟨⟨inner, c, rest⟩, ⟨hbetween, hencloses⟩, _⟩ :=
        h.closed before l between word hlines hmark
      dsimp only at hbetween hencloses
      rw [hbetween, List.append_assoc, List.cons_append]
      exact hencloses.existsUnique_closing
  · intro before l behind word heq hmark
    rcases exists_append_of_append_eq heq with ⟨between, rfl, hlines'⟩ | ⟨between, hlines, rfl⟩
    · obtain ⟨⟨rest, o, inner⟩, ⟨hbetween, hencloses⟩, _⟩ :=
        h'.opened between l behind word hlines' hmark
      dsimp only at hbetween hencloses
      rw [hbetween, ← List.append_assoc]
      exact hencloses.existsUnique_opening
    · exact h.opened before l between word hlines hmark

/-- Nested lines between a header and the line that closes its block. -/
theorem enclose (h : Nested target spellings? inner)
    (hencloses : Encloses target spellings? o c inner) :
    Nested target spellings? (o :: (inner ++ [c])) := by
  obtain ⟨closer, hopening, hclosing⟩ := hencloses.closer
  constructor
  · intro before l behind word heq hmark
    cases before with
    | nil =>
        cases heq
        exact hencloses.existsUnique_closing
    | cons first before =>
        obtain ⟨rfl, hbehind⟩ := List.cons.inj heq
        rcases exists_append_of_append_eq hbehind with ⟨between, _, hlast⟩ | ⟨between, hinner, rfl⟩
        · obtain rfl : l = c := List.mem_singleton.mp (by rw [hlast]; simp)
          rw [hclosing] at hmark
          cases hmark
        · obtain ⟨⟨inside, c', rest⟩, ⟨hbetween, hencloses'⟩, _⟩ :=
            h.closed before l between word hinner hmark
          dsimp only at hbetween hencloses'
          rw [hbetween, List.append_assoc, List.cons_append]
          exact hencloses'.existsUnique_closing
  · intro before l behind word heq hmark
    cases before with
    | nil =>
        cases heq
        rw [hopening] at hmark
        cases hmark
    | cons first before =>
        obtain ⟨rfl, hbehind⟩ := List.cons.inj heq
        rcases exists_append_of_append_eq hbehind with
          ⟨between, hbefore, hlast⟩ | ⟨between, hinner, _⟩
        · rcases List.append_eq_singleton_iff.mp hlast.symm with ⟨rfl, hl⟩ | ⟨_, hl⟩
          · cases hl
            rw [hbefore, List.append_nil, ← List.nil_append (_ :: inner)]
            exact hencloses.existsUnique_opening
          · cases hl
        · obtain ⟨⟨rest, o', inside⟩, ⟨hbefore, hencloses'⟩, _⟩ :=
            h.opened before l between word hinner hmark
          dsimp only at hbefore hencloses'
          rw [hbefore, ← List.cons_append]
          exact hencloses'.existsUnique_opening

end Nested

end

/-- The line is the one line that is made from a statement, as far in as the statement's ancestors
put it. It is not empty, and its text does to the blocks what the statement does. -/
structure Spot.Stands (target : Target) (spellings? : Option Spellings) (base : Nat) (spot : Spot)
    (line : CodeLine) : Prop where
  text : line.text ≠ ""
  mark : target.blockMark line.text = spot.head.kind.blockMark target
  depth : line.depth = base + spot.ancestors.countP fun s => s.kind ≠ .region
  emitted : ∃ header?, spot.head.Emits target spellings? line.depth
    (spot.ancestors.map Statement.kind) header? [line]
  exits : target = .vba → spot.head.kind = .breakLoop → (line.text = "Exit For" ↔
    ∃ loop, (spot.ancestors.find? fun s => s.kind.isLoop) = some loop ∧
      loop.kind.isCountingLoop = true)

/-- The lines are those of the statements, one for each and in order. -/
structure LineByLine (target : Target) (spellings? : Option Spellings) (base : Nat)
    (spots : List Spot) (lines : List SourcedLine) : Prop where
  sources : lines.map SourcedLine.source? = spots.map some
  stands : ∀ l ∈ lines, ∀ spot ∈ l.source?, spot.Stands target spellings? base l.line

/-- Behind a header stand the rest of its block, the line that closes it and further blocks; where
no block is open, whole blocks only. -/
def Finishes (target : Target) (spellings? : Option Spellings) (depth : Nat)
    (ancestors : List Statement) (header? : Option Statement) (lines : List SourcedLine) : Prop :=
  match header? with
  | none => Nested target spellings? lines
  | some header => ∃ (inner rest : List SourcedLine) (c : SourcedLine) (closing : Spot),
      lines = inner ++ c :: rest ∧ Nested target spellings? inner ∧
        (∀ l ∈ inner, l.Inside target depth (some ancestors)) ∧
        (inner ≠ [] → header.kind = .ifThen) ∧ c.source? = some closing ∧
        closing.ancestors = ancestors ∧ closing.head.kind.closesBlock = true ∧
        closing.head.kind.Follows (some header.kind) ∧
        closing.head.Shows target spellings? depth (ancestors.map Statement.kind) (some header)
          c.line ∧
        Nested target spellings? rest

/-- The statement is rendered to one line that shows it. -/
def Statement.ShowsIn (target : Target) (spellings? : Option Spellings) : LineCondition :=
  fun depth around header? s lines =>
    ∃ line, lines = [line] ∧ s.Shows target spellings? depth around header? line

namespace StatementKind

theorem blockMark_of_isPlain {kind : StatementKind} (h : kind.isPlain = true) (target : Target) :
    kind.blockMark target = .plain := by
  revert h
  cases target <;> cases kind <;> decide

theorem blockMark_of_continuesBlock {kind : StatementKind} (h : kind.continuesBlock = true)
    (target : Target) : kind.blockMark target = .continuing ∧ kind ≠ .region := by
  revert h
  cases target <;> cases kind <;> decide

/-- A header and the line that closes its block are comments if they belong to a region, and open
and close a block with the same word if not. -/
theorem blockMark_of_follows {header closing : StatementKind} (hheader : header.opensBlock = true)
    (hclosing : closing.closesBlock = true) (h : closing.Follows (some header)) (target : Target) :
    (header = .region ∧ header.blockMark target = .plain ∧ closing.blockMark target = .plain) ∨
      (header ≠ .region ∧ header.blockMark target = .opening (target.closer closing) ∧
        closing.blockMark target = .closing (target.closer closing)) := by
  have hall : ∀ target ∈ Target.all, ∀ header ∈ all, ∀ closing ∈ all, header.opensBlock = true →
      closing.closesBlock = true → closing.Follows (some header) →
        (header = .region ∧ header.blockMark target = .plain ∧ closing.blockMark target = .plain) ∨
          (header ≠ .region ∧ header.blockMark target = .opening (target.closer closing) ∧
            closing.blockMark target = .closing (target.closer closing)) := by
    decide +kernel
  exact hall target (by cases target <;> decide) header header.mem_all closing closing.mem_all
    hheader hclosing h

/-- Only the end of a counting loop closes one. -/
theorem isCountingLoop_of_follows {header : StatementKind} (hheader : header.opensBlock = true)
    (h : StatementKind.endFor.Follows (some header)) : header.isCountingLoop = true := by
  revert hheader h
  cases header <;> decide

end StatementKind

section

variable {target : Target} {spellings? : Option Spellings} {base depth : Nat}
  {around : List StatementKind} {ancestors : List Statement} {header closing : Statement}
  {opened closed : CodeLine}

/-- The line that closes a block is read with the header, and the header names what it names. -/
theorem Statement.answers_of_shows (htarget : target ≠ .python)
    (hheader : header.kind.opensBlock = true)
    (hfits : closing.kind.Follows (some header.kind))
    (hopened : header.Shows target spellings? depth around none opened)
    (hclosed : closing.Shows target spellings? depth around (some header) closed) :
    header.Answers target spellings? closing opened.text closed.text where
  fits := hfits
  footer := hclosed.emits.footer htarget
  counter hvba hkind := by
    subst hvba
    obtain ⟨counter, hcounter, hnext⟩ := hclosed.emits.next hkind
    rw [hkind] at hfits
    obtain ⟨counter', rest, hcounter', hstart⟩ :=
      hopened.emits.start (StatementKind.isCountingLoop_of_follows hheader hfits)
    rw [hcounter'] at hcounter
    cases hcounter
    exact ⟨counter, rest, hcounter', hstart, hnext⟩

theorem Spot.stands_of_shows {spot : Spot} {line : CodeLine} {header? : Option Statement}
    (hdepth : depth = base + spot.ancestors.countP fun s => s.kind ≠ .region)
    (h : spot.head.Shows target spellings? depth (spot.ancestors.map Statement.kind) header?
      line) : spot.Stands target spellings? base line := by
  refine ⟨h.text, h.mark, h.depth.trans hdepth, ⟨header?, h.depth.symm ▸ h.emits⟩, ?_⟩
  rintro rfl hkind
  rw [h.emits.exit hkind, List.find?_map]
  simp only [Option.map_eq_some_iff, exists_exists_and_eq_and]
  rfl

theorem LineByLine.nil : LineByLine target spellings? base [] [] :=
  ⟨rfl, by simp⟩

theorem LineByLine.cons {spot : Spot} {line : CodeLine} {spots : List Spot}
    {lines : List SourcedLine} (hline : spot.Stands target spellings? base line)
    (h : LineByLine target spellings? base spots lines) :
    LineByLine target spellings? base (spot :: spots) (⟨some spot, line⟩ :: lines) := by
  refine ⟨congrArg _ h.sources, ?_⟩
  rw [List.forall_mem_cons]
  refine ⟨?_, h.stands⟩
  rintro _ ⟨⟩
  exact hline

theorem LineByLine.append {spots spots' : List Spot} {lines lines' : List SourcedLine}
    (h : LineByLine target spellings? base spots lines)
    (h' : LineByLine target spellings? base spots' lines') :
    LineByLine target spellings? base (spots ++ spots') (lines ++ lines') := by
  refine ⟨by rw [List.map_append, List.map_append, h.sources, h'.sources], ?_⟩
  rw [List.forall_mem_append]
  exact ⟨h.stands, h'.stands⟩

theorem Target.fillerLines_eq_nil (htarget : target ≠ .python) (kind : StatementKind)
    (lines : List CodeLine) : target.fillerLines kind depth lines = [] := by
  rw [Target.fillerLines]
  cases target with
  | python => exact absurd rfl htarget
  | javaScript | vba | ruby => split <;> rfl

theorem StatementKind.le_depthInside (kind : StatementKind) (depth : Nat) :
    depth ≤ kind.depthInside depth := by
  rw [depthInside]
  split <;> omega

theorem StatementKind.depthInside_add (kind : StatementKind) (base depth : Nat) :
    kind.depthInside (base + depth) = base + kind.depthInside depth := by
  rw [depthInside, depthInside]
  split
  · rfl
  · exact Nat.add_assoc base depth 1

/-- A statement puts what is nested under it further in unless it is a region. -/
theorem depthInside_countP (s : Statement) (ancestors : List Statement) :
    s.kind.depthInside (ancestors.countP fun s => s.kind ≠ .region) =
      (s :: ancestors).countP fun s => s.kind ≠ .region := by
  rw [StatementKind.depthInside, List.countP_cons]
  by_cases hkind : s.kind = .region <;> simp [hkind]

/-- The lines of a block with where they come from, none less deep than the block. -/
structure Traced (target : Target) (spellings? : Option Spellings) (base depth : Nat)
    (spots : List Spot) (lines : List CodeLine) (sourced : List SourcedLine) : Prop where
  lines : sourced.map SourcedLine.line = lines
  lineByLine : LineByLine target spellings? base spots sourced
  le_depth : ∀ l ∈ sourced, depth ≤ l.line.depth

theorem Traced.nil : Traced target spellings? base depth [] [] [] :=
  ⟨rfl, .nil, by simp⟩

/-- The line of a statement comes in front of the lines of what is nested under it, and these in
front of the lines of what follows. -/
theorem Traced.cons {spot : Spot} {line : CodeLine} {header? : Option Statement}
    {spots spots' : List Spot} {lines lines' : List CodeLine} {sourced sourced' : List SourcedLine}
    (hdepth : depth = base + spot.ancestors.countP fun s => s.kind ≠ .region)
    (hown : spot.head.Shows target spellings? depth (spot.ancestors.map Statement.kind) header?
      line)
    (hbody : Traced target spellings? base (spot.head.kind.depthInside depth) spots lines sourced)
    (hnext : Traced target spellings? base depth spots' lines' sourced') :
    Traced target spellings? base depth (spot :: (spots ++ spots')) (line :: (lines ++ lines'))
      (⟨some spot, line⟩ :: (sourced ++ sourced')) := by
  refine ⟨?_, .cons (Spot.stands_of_shows hdepth hown)
    (hbody.lineByLine.append hnext.lineByLine), ?_⟩
  · rw [List.map_cons, List.map_append, hbody.lines, hnext.lines]
  · rw [List.forall_mem_cons, List.forall_mem_append]
    refine ⟨hown.depth.ge, fun l hl => ?_, hnext.le_depth⟩
    exact (spot.head.kind.le_depthInside depth).trans (hbody.le_depth l hl)

section Finishes

variable {spot : Spot} {line : CodeLine} {nested sourced : List SourcedLine}

/-- What is nested under a header that is no region stands further in than the header. -/
theorem lt_depth_of_depthInside {kind : StatementKind} (hregion : kind ≠ .region)
    (hdeeper : ∀ l ∈ nested, kind.depthInside depth ≤ l.line.depth) :
    ∀ l ∈ nested, depth < l.line.depth := by
  intro l hl
  have hle := hdeeper l hl
  rwa [StatementKind.depthInside, if_neg hregion] at hle

/-- A header, what is nested under it and the lines up to the one that closes its block are
nested, and so is what follows. -/
theorem Finishes.nested_header (htarget : target ≠ .python)
    (hkind : spot.head.kind.opensBlock = true)
    (hown : spot.head.Shows target spellings? depth (spot.ancestors.map Statement.kind) none line)
    (hnested : Nested target spellings? nested)
    (hdeeper : ∀ l ∈ nested, spot.head.kind.depthInside depth ≤ l.line.depth)
    (hnext : Finishes target spellings? depth spot.ancestors (some spot.head) sourced) :
    Nested target spellings? (⟨some spot, line⟩ :: (nested ++ sourced)) := by
  obtain ⟨inner, rest, c, closing, rfl, hinner, hinside, hchoice, hsource, hunder, hcloses, hfits,
    hclosing, hrest⟩ := hnext
  rcases StatementKind.blockMark_of_follows hkind hcloses hfits target with
    ⟨_, hplain, hplain'⟩ | ⟨hregion, hopens, hcloses⟩
  · -- The two lines of a region are comments, and what is between them stands beside them.
    have hfirst : Nested target spellings? [⟨some spot, line⟩] :=
      .single (.inl (hown.mark.trans hplain))
    have hlast : Nested target spellings? [c] := .single (.inl (hclosing.mark.trans hplain'))
    exact hfirst.append (hnested.append (hinner.append (hlast.append hrest)))
  · have hlt := lt_depth_of_depthInside hregion hdeeper
    have hencloses : Encloses target spellings? ⟨some spot, line⟩ c (nested ++ inner) := by
      refine ⟨⟨_, hown.mark.trans hopens, hclosing.mark.trans hcloses⟩,
        hclosing.depth.trans hown.depth.symm, ?_, ?_, ?_, ?_⟩
      · rw [SourcedLine.under?, SourcedLine.under?, hsource, Option.map_some, hunder]
        rfl
      · rw [List.forall_mem_append]
        exact ⟨fun l hl => .inl (hown.depth ▸ hlt l hl), fun l hl => hown.depth ▸ hinside l hl⟩
      · rintro ⟨l, hl, hdepth⟩
        rcases List.mem_append.mp hl with hl | hl
        · exact absurd (hdepth.trans hown.depth) (hlt l hl).ne'
        · exact ⟨spot, rfl, hchoice (List.ne_nil_of_mem hl)⟩
      · rintro _ ⟨⟩ _ hclosing'
        rw [hsource] at hclosing'
        cases hclosing'
        exact Statement.answers_of_shows htarget hkind hfits hown hclosing
    have hblock := Nested.enclose (hnested.append hinner) hencloses
    simpa using hblock.append hrest

/-- A further alternative of a choice leaves the choice open. -/
theorem Finishes.alternative {header : Statement} (hheader : header.kind = .ifThen)
    (hkind : spot.head.kind.continuesBlock = true)
    (hown : spot.head.Shows target spellings? depth (spot.ancestors.map Statement.kind) none line)
    (hnested : Nested target spellings? nested)
    (hdeeper : ∀ l ∈ nested, spot.head.kind.depthInside depth ≤ l.line.depth)
    (hnext : Finishes target spellings? depth spot.ancestors (some header) sourced) :
    Finishes target spellings? depth spot.ancestors (some header)
      (⟨some spot, line⟩ :: (nested ++ sourced)) := by
  obtain ⟨inner, rest, c, closing, rfl, hinner, hinside, _, hclosing⟩ := hnext
  obtain ⟨hcontinuing, hregion⟩ := StatementKind.blockMark_of_continuesBlock hkind target
  have hmark := hown.mark.trans hcontinuing
  refine ⟨⟨some spot, line⟩ :: (nested ++ inner), rest, c, closing, by simp, ?_, ?_,
    fun _ => hheader, hclosing⟩
  · have hfirst : Nested target spellings? [⟨some spot, line⟩] := .single (.inr hmark)
    exact hfirst.append (hnested.append hinner)
  · rw [List.forall_mem_cons, List.forall_mem_append]
    exact ⟨.inr ⟨hown.depth, hmark, rfl⟩,
      fun l hl => .inl (lt_depth_of_depthInside hregion hdeeper l hl), hinside⟩

end Finishes

/-- The lines that are laid out along a tree are those of its statements, and its blocks are
nested in them. -/
theorem Laid.exists_traced {header? : Option Statement} {b : Block} {lines : List CodeLine}
    (htarget : target ≠ .python)
    (h : Laid target (Statement.ShowsIn target spellings?) header? depth around b lines)
    (ancestors : List Statement) (previous : Option Statement)
    (haround : around = ancestors.map Statement.kind)
    (hdepth : depth = base + ancestors.countP fun s => s.kind ≠ .region) :
    ∃ sourced,
      Traced target spellings? base depth (b.spotsUnder ancestors previous) lines sourced ∧
        Finishes target spellings? depth ancestors header? sourced := by
  induction h generalizing ancestors previous with
  | nil => exact ⟨[], .nil, .nil⟩
  | @plain depth around s next own rest hkind hown _ ihnext =>
      subst haround
      obtain ⟨sourced, htraced, hnested⟩ := ihnext ancestors (some s) rfl hdepth
      obtain ⟨line, rfl, hline⟩ := hown
      have hmark := hline.mark.trans (StatementKind.blockMark_of_isPlain hkind target)
      have hfirst : Nested target spellings?
          [⟨some ⟨s, .nil, ancestors, previous, next.first?⟩, line⟩] := .single (.inl hmark)
      exact ⟨_, .cons hdepth hline .nil htraced, hfirst.append hnested⟩
  | @header depth around s body next own inner rest hkind hown _ _ ihbody ihnext =>
      subst haround
      obtain ⟨nested, hinner, hnested⟩ := ihbody (s :: ancestors) none rfl
        (by rw [hdepth, StatementKind.depthInside_add, depthInside_countP])
      obtain ⟨sourced, htraced, hfinishes⟩ := ihnext ancestors (some s) rfl hdepth
      obtain ⟨line, rfl, hline⟩ := hown
      rw [Target.fillerLines_eq_nil htarget, List.append_nil]
      exact ⟨_, .cons hdepth hline hinner htraced,
        Finishes.nested_header htarget hkind hline hnested hinner.le_depth hfinishes⟩
  | @alternative depth around header s body next own inner rest hheader hkind _ hown _ _ ihbody
      ihnext =>
      subst haround
      obtain ⟨nested, hinner, hnested⟩ := ihbody (s :: ancestors) none rfl
        (by rw [hdepth, StatementKind.depthInside_add, depthInside_countP])
      obtain ⟨sourced, htraced, hfinishes⟩ := ihnext ancestors (some s) rfl hdepth
      obtain ⟨line, rfl, hline⟩ := hown
      rw [Target.fillerLines_eq_nil htarget, List.append_nil]
      exact ⟨_, .cons hdepth hline hinner htraced,
        Finishes.alternative hheader hkind hline hnested hinner.le_depth hfinishes⟩
  | @closing depth around header s next own rest hkind hfits hown _ ihnext =>
      subst haround
      obtain ⟨sourced, htraced, hnested⟩ := ihnext ancestors (some s) rfl hdepth
      obtain ⟨line, rfl, hline⟩ := hown
      exact ⟨_, .cons hdepth hline .nil htraced, [], sourced, _, _, rfl, .nil, by simp, by simp,
        rfl, rfl, hkind, hfits, hline, hnested⟩

end

/-- Whether the statement opens or closes the definition of a function. -/
def StatementKind.delimitsFunction (kind : StatementKind) : Bool :=
  kind == .defineFunction || kind == .endFunction

namespace Block

/-- The functions that a program defines. -/
def functionPart (program : Block) : Block :=
  ofNodes (program.nodes.filter fun node => node.head.kind.delimitsFunction)

/-- What a program does outside of the functions that it defines. -/
def mainPart (program : Block) : Block :=
  ofNodes (program.nodes.filter fun node => !node.head.kind.delimitsFunction)

/-- Where neighbours agree, functions are taken out with the lines that end them and without
anything else. -/
theorem splitFunctions_eq {b : Block} {previous : Option StatementKind} {inFunction : Bool}
    (h : b.Orderly previous) (hin : previous = some .defineFunction → inFunction = true) :
    b.splitFunctions inFunction = (b.functionPart, b.mainPart) := by
  induction b generalizing previous inFunction with
  | nil => rfl
  | cons head body next _ ih =>
      obtain ⟨_, hfollows, _, hnext⟩ := h
      by_cases hdelimits : head.kind.delimitsFunction = true
      · have hcondition : head.kind = .defineFunction ∨ head.kind = .endFunction ∧ inFunction := by
          rcases Bool.or_eq_true_iff.mp hdelimits with hkind | hkind
          · exact .inl (eq_of_beq hkind)
          · rw [eq_of_beq hkind] at hfollows
            obtain ⟨other, hother, hmem⟩ := hfollows.exists_mem rfl
            rw [List.mem_singleton.mp hmem] at hother
            exact .inr ⟨eq_of_beq hkind, hin hother⟩
        rw [splitFunctions, if_pos hcondition, ih hnext (fun heq => by simpa using heq)]
        simp [functionPart, mainPart, nodes, hdelimits, ofNodes]
      · have hcondition :
            ¬ (head.kind = .defineFunction ∨ head.kind = .endFunction ∧ inFunction = true) := by
          intro hkind
          apply hdelimits
          rcases hkind with hkind | ⟨hkind, _⟩ <;> rw [hkind] <;> rfl
        rw [splitFunctions, if_neg hcondition, ih hnext ?_]
        · simp [functionPart, mainPart, nodes, hdelimits, ofNodes]
        · intro heq
          exact absurd (.inl (Option.some.inj heq)) hcondition

/-- The lines are those of the statements of a program, one for each and in order. In VBA the
functions come first, and the rest stands in the procedure behind them. -/
def Arranged (program : Block) (target : Target) (options : RenderOptions)
    (spellings? : Option Spellings) (lines : List SourcedLine) : Prop :=
  match target with
  | .vba => ∃ functions main,
      LineByLine .vba spellings? 0 program.functionPart.spots functions ∧
        LineByLine .vba spellings? 1 program.mainPart.spots main ∧
        lines = functions
          ++ (if program.functionPart.isEmpty then [] else [⟨none, { text := "" }⟩])
          ++ ⟨none, { text := "Sub " ++ options.entryPoint ++ "()" }⟩
            :: (main ++ [⟨none, { text := "End Sub" }⟩])
  | target => LineByLine target spellings? 0 program.spots lines

section

variable {target : Target} {spellings? : Option Spellings}

/-- The lines of a part of a program without findings. -/
theorem exists_sourced_of_passages {program b : Block} {depth : Nat} {passages : List Passage}
    (htarget : target ≠ .python) (hvalid : program.validate = [])
    (hspellings : ∀ spellings ∈ spellings?, spellings.SuppliedFor program)
    (hsub : ∀ s ∈ b.statements, s ∈ program.statements) (hb : b.Orderly none) (hscoped : b.Scoped)
    (h : b.passages target spellings? { depth := depth } [] = .ok passages) :
    ∃ sourced,
      Traced target spellings? depth depth b.spots (passages.flatMap Passage.lines) sourced ∧
        Nested target spellings? sourced :=
  have hlaid := (laid_of_passages_nil hb hscoped h).imp (Q := fun s => s ∈ program.statements)
    (fun hs hheader hfits hemits => exists_shows htarget hvalid hspellings hs hheader hfits hemits)
    (by simp) hsub
  Laid.exists_traced htarget hlaid [] none rfl rfl

/-- The procedure around the statements that stand in no function. -/
theorem nested_procedure {main : List SourcedLine} (name : String)
    (hmain : Nested .vba spellings? main) (hdepth : ∀ l ∈ main, 1 ≤ l.line.depth) :
    Nested .vba spellings? (⟨none, { text := "Sub " ++ name ++ "()" }⟩
      :: (main ++ [⟨none, { text := "End Sub" }⟩])) := by
  have hopens : Vba.blockMark ("Sub " ++ (name ++ "()")) = .opening "End Sub" :=
    (Vba.blockMark_of_front (by decide : Fronted "Sub " "Sub" " ") _).2
  rw [← String.append_assoc] at hopens
  refine hmain.enclose ⟨⟨_, hopens, by decide⟩, rfl, rfl, fun l hl => .inl (hdepth l hl), ?_,
    by simp⟩
  rintro ⟨l, hl, heq⟩
  exact absurd heq (Nat.ne_of_gt (hdepth l hl))

/-- The lines of a program without findings are nested, with any spellings that are supplied for
it. -/
theorem generate_nested {program : Block} {options : RenderOptions} {code : String}
    (htarget : target ≠ .python) (hvalid : program.validate = [])
    (hspellings : ∀ spellings ∈ spellings?, spellings.SuppliedFor program)
    (hcode : program.generate target options spellings? = .ok code) :
    ∃ lines : List SourcedLine,
      code = String.join (lines.map fun l => l.line.row options.indentWidth ++ "\n") ∧
        Nested target spellings? lines ∧ program.Arranged target options spellings? lines := by
  obtain ⟨lines, hlines, rfl⟩ := map_eq_ok_iff.mp hcode
  obtain ⟨passages, hpassages, rfl⟩ := map_eq_ok_iff.mp hlines
  have hform := wellFormed_of_validate hvalid
  have hjoin {sourced : List SourcedLine}
      (h : sourced.map SourcedLine.line = passages.flatMap Passage.lines) :
      String.join ((passages.flatMap Passage.lines).map (CodeLine.layout options.indentWidth)) =
        String.join (sourced.map fun l => l.line.row options.indentWidth ++ "\n") := by
    rw [← h, List.map_map]
    rfl
  cases target with
  | python => exact absurd rfl htarget
  | javaScript | ruby =>
      obtain ⟨sourced, htraced, hnested⟩ := exists_sourced_of_passages htarget hvalid hspellings
        (fun _ hs => hs) hform.orderly hform.scoped hpassages
      exact ⟨sourced, hjoin htraced.lines, hnested, htraced.lineByLine⟩
  | vba =>
      have hsplit : program.splitFunctions false = (program.functionPart, program.mainPart) :=
        splitFunctions_eq hform.orderly (by simp)
      have horderly := hform.orderly.splitsOrderly
      have hscoped := hform.scoped.splitFunctions false
      have hsub {s : Statement} (hs : s ∈ program.functionPart.statements ∨
          s ∈ program.mainPart.statements) : s ∈ program.statements :=
        @mem_statements_splitFunctions program false s (by rwa [hsplit])
      rw [document, procedurePassages, hsplit] at hpassages
      rw [hsplit] at hscoped
      have hfunctions := horderly.functions none
      have hmain := horderly.main
      rw [hsplit] at hfunctions hmain
      obtain ⟨functionPassages, hfunctionPassages, hpassages⟩ := bind_eq_ok_iff.mp hpassages
      obtain ⟨mainPassages, hmainPassages, ⟨⟩⟩ := bind_eq_ok_iff.mp hpassages
      obtain ⟨functions, hfunctionsTraced, hfunctionsNested⟩ :=
        exists_sourced_of_passages htarget hvalid hspellings (fun _ hs => hsub (.inl hs))
          hfunctions hscoped.1 hfunctionPassages
      obtain ⟨main, hmainTraced, hmainNested⟩ :=
        exists_sourced_of_passages htarget hvalid hspellings (fun _ hs => hsub (.inr hs))
          hmain hscoped.2 hmainPassages
      have hprocedure := nested_procedure options.entryPoint hmainNested hmainTraced.le_depth
      refine ⟨_, hjoin ?_, ?_, functions, main, hfunctionsTraced.lineByLine,
        hmainTraced.lineByLine, rfl⟩
      · simp only [List.map_append, List.map_cons, hfunctionsTraced.lines, hmainTraced.lines]
        cases program.functionPart.isEmpty <;> simp [Passage.ofLines, Vba.entryLine, Vba.exitLine]
      · cases program.functionPart.isEmpty with
        | true => exact (hfunctionsNested.append .nil).append hprocedure
        | false =>
            exact (hfunctionsNested.append (.single (.inl (by decide)))).append hprocedure

end

end Block

/-- A function with a choice in a loop, between statements that stand in no function. -/
def searchBetweenCalls : Block :=
  let search : Block :=
    .cons ⟨"do", .doWhile, ["n > 0"], false, false⟩
      (.cons ⟨"if", .ifThen, ["n < 9"], false, false⟩
        (.cons ⟨"leave", .breakLoop, [], false, false⟩ .nil .nil)
        (.cons ⟨"else", .otherwise, [], false, false⟩
          (.cons ⟨"less", .decrement, ["n", "1"], false, false⟩ .nil .nil)
          (.cons ⟨"fi", .endIf, [], false, false⟩ .nil .nil)))
      (.cons ⟨"while", .endDoWhile, [], false, false⟩ .nil .nil)
  .cons ⟨"call", .callFunction, ["search", "12"], false, false⟩ .nil
    (.cons ⟨"search", .defineFunction, ["search", "n"], false, false⟩ search
      (.cons ⟨"found", .endFunction, [], false, false⟩ .nil
        (.cons ⟨"for", .forIncrement, ["i", "1", "3", "1"], false, false⟩
          (.cons ⟨"stop", .breakLoop, [], false, false⟩ .nil .nil)
          (.cons ⟨"next", .endFor, [], false, false⟩ .nil .nil))))

/-- The two breaks leave loops of different kinds, and the function is taken to the front. -/
def searchInVba : String :=
  "Sub search(n)\n    Do\n        If n < 9 Then\n            Exit Do\n        Else\n"
    ++ "            n = n - 1\n        End If\n    Loop While n > 0\nEnd Sub\n\nSub Main()\n"
    ++ "    Call search(12)\n    For i = 1 To 3\n        Exit For\n    Next i\nEnd Sub\n"

theorem generate_nested_searchBetweenCalls :
    Target.vba ≠ .python ∧ searchBetweenCalls.validate = [] ∧
      (∀ spellings ∈ (none : Option Spellings), spellings.SuppliedFor searchBetweenCalls) ∧
      searchBetweenCalls.generate .vba {} none = .ok searchInVba ∧
      ∃ lines : List SourcedLine,
        searchInVba = String.join
            (lines.map fun l => l.line.row ({} : RenderOptions).indentWidth ++ "\n") ∧
          Nested .vba none lines ∧ searchBetweenCalls.Arranged .vba {} none lines := by
  have htarget : Target.vba ≠ .python := by decide
  have hvalid : searchBetweenCalls.validate = [] := by decide +kernel
  have hspellings : ∀ spellings ∈ (none : Option Spellings),
      spellings.SuppliedFor searchBetweenCalls := by simp
  have hcode : searchBetweenCalls.generate .vba {} none = .ok searchInVba := by decide +kernel
  have h := Block.generate_nested htarget hvalid hspellings hcode
  exact ⟨htarget, hvalid, hspellings, hcode, h⟩

end BlockCode
