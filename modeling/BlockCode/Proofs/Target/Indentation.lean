/- # Indentation in Python

What is nested in the program has to be seen from the indentation alone. Behind a header the next
line of code is one level further in, nowhere else does the indentation grow, and a line that goes
on with a choice comes back to where the choice was opened.

Closing lines mostly have no code, so the end of a block shows only in what follows it. The lines of
a list of statements are therefore looked at in pieces that can follow each other at one depth.
Behind a header whose block is open come three of them: the further alternatives, the lines that the
closing statement adds to the body, and everything behind the block.
-/

import Mathlib.Data.List.Chain
import BlockCode.Proofs.Target.Nesting
import BlockCode.Proofs.Target.PythonLines

namespace BlockCode

/-- How the indentation goes on from one line of code to the next: one level further in behind a
header, and no further in anywhere else. -/
def CodeLine.LeadsTo (line next : CodeLine) : Prop :=
  (line.IsHeader ↔ next.depth = line.depth + 1) ∧ (¬ line.IsHeader → next.depth ≤ line.depth)

namespace SourcedLine

/-- Whether the line is more than a comment. -/
def isCode (l : SourcedLine) : Bool :=
  l.line.isCode

/-- The line stands inside a choice at the depth, or tests another condition for it. -/
def Within (depth : Nat) (under? : Option (List Statement)) (l : SourcedLine) : Prop :=
  depth < l.line.depth ∨
    l.line.depth = depth ∧ l.line.Heads "elif " ∧ l.under? = under?

end SourcedLine

/-- The last line goes on with the choice that the first one opened, with the given lines between
them. -/
structure Resumes (o : SourcedLine) (between : List SourcedLine) (l : SourcedLine) : Prop where
  opens : o.line.Heads "if "
  choice : o.source?.map (fun spot => spot.head.kind) = some .ifThen
  depth : l.line.depth = o.line.depth
  siblings : l.under? = o.under?
  between : ∀ m ∈ between, m.Within o.line.depth o.under?

/-- The lines of code are indented as Python asks for: none is further in than the line before it
except behind a header, where the next line is one level further in, and a line that goes on with a
choice stands as far in as the line that opened the choice. -/
structure Indented (lines : List SourcedLine) : Prop where
  first : ∀ l ∈ lines.head?, l.line.depth = 0
  steps : lines.IsChain fun a b => a.line.LeadsTo b.line
  last : ∀ l ∈ lines.getLast?, ¬ l.line.IsHeader
  resumes : ∀ before l behind, lines = before ++ l :: behind → l.line.IsAlternative →
    ∃ front o between, before = front ++ o :: between ∧ Resumes o between l

/-- The line goes on with a choice among the lines before it, or with one that was opened before
them among the given siblings. -/
def ResumesIn (depth : Nat) (choice? : Option (List Statement)) (before : List SourcedLine)
    (l : SourcedLine) : Prop :=
  (∃ front o between, before = front ++ o :: between ∧ Resumes o between l) ∨
    ∃ ancestors, choice? = some ancestors ∧ l.line.depth = depth ∧ l.under? = some ancestors ∧
      ∀ m ∈ before, m.Within depth (some ancestors)

/-- The lines are those of a list of statements at the depth, where a choice may be open in front
of them. -/
structure IndentedAt (depth : Nat) (choice? : Option (List Statement))
    (lines : List SourcedLine) : Prop where
  le_depth : ∀ l ∈ lines, depth ≤ l.line.depth
  first : ∀ l ∈ lines.head?, l.line.depth = depth
  steps : lines.IsChain fun a b => a.line.LeadsTo b.line
  last : ∀ l ∈ lines.getLast?, ¬ l.line.IsHeader
  resumes : ∀ before l behind, lines = before ++ l :: behind → l.line.IsAlternative →
    ResumesIn depth choice? before l

section

variable {depth : Nat} {choice? choice'? : Option (List Statement)} {ancestors : List Statement}
  {before lines lines' : List SourcedLine} {l o : SourcedLine}

namespace ResumesIn

theorem append_left (lines : List SourcedLine) {depth' : Nat}
    (h : ResumesIn depth' none before l) : ResumesIn depth choice? (lines ++ before) l := by
  obtain ⟨front, o, between, rfl, h⟩ | ⟨_, ⟨⟩, _⟩ := h
  exact .inl ⟨lines ++ front, o, between, by simp, h⟩

/-- Lines that stay inside the open choice may come in front. -/
theorem append_within (h : ResumesIn depth (some ancestors) before l)
    (hlines : ∀ m ∈ lines, m.Within depth (some ancestors)) :
    ResumesIn depth (some ancestors) (lines ++ before) l := by
  obtain ⟨front, o, between, rfl, h⟩ | ⟨_, ⟨⟩, hdepth, hunder, hbefore⟩ := h
  · exact .inl ⟨lines ++ front, o, between, by simp, h⟩
  · refine .inr ⟨ancestors, rfl, hdepth, hunder, ?_⟩
    rw [List.forall_mem_append]
    exact ⟨hlines, hbefore⟩

/-- The line that opened the choice may come in front, with what is nested under it. -/
theorem opened (h : ResumesIn depth (some ancestors) before l) (hopens : o.line.Heads "if ")
    (hchoice : o.source?.map (fun spot => spot.head.kind) = some .ifThen)
    (hunder : o.under? = some ancestors) (hdepth : o.line.depth = depth)
    (hlines : ∀ m ∈ lines, depth < m.line.depth) :
    ResumesIn depth none (o :: lines ++ before) l := by
  obtain ⟨front, o', between, rfl, h⟩ | ⟨_, ⟨⟩, hdepth', hunder', hbefore⟩ := h
  · exact .inl ⟨o :: lines ++ front, o', between, by simp, h⟩
  · refine .inl ⟨[], o, lines ++ before, rfl, hopens, hchoice, hdepth'.trans hdepth.symm,
      hunder'.trans hunder.symm, ?_⟩
    rw [hdepth, hunder, List.forall_mem_append]
    exact ⟨fun m hm => .inl (hlines m hm), hbefore⟩

end ResumesIn

namespace IndentedAt

theorem nil : IndentedAt depth choice? [] := by
  refine ⟨by simp, by simp, .nil, by simp, ?_⟩
  intro before l behind h
  simp at h

/-- Lines of code that follow each other at one depth. -/
theorem append (h : IndentedAt depth choice? lines) (h' : IndentedAt depth choice'? lines')
    (hresumes : ∀ before l, ResumesIn depth choice'? before l →
      ResumesIn depth choice? (lines ++ before) l) :
    IndentedAt depth choice? (lines ++ lines') := by
  refine ⟨?_, ?_, ?_, ?_, ?_⟩
  · rw [List.forall_mem_append]
    exact ⟨h.le_depth, h'.le_depth⟩
  · intro l hl
    rw [List.head?_append, Option.mem_def, Option.or_eq_some_iff] at hl
    rcases hl with hl | ⟨_, hl⟩
    · exact h.first l hl
    · exact h'.first l hl
  · rw [List.isChain_append]
    refine ⟨h.steps, h'.steps, fun a ha b hb => ?_⟩
    have hheader := h.last a ha
    have hle : b.line.depth ≤ a.line.depth :=
      (h'.first b hb).trans_le (h.le_depth a (List.mem_of_getLast? ha))
    exact ⟨⟨fun hheader' => absurd hheader' hheader, fun heq => by omega⟩, fun _ => hle⟩
  · intro l hl
    rw [List.getLast?_append, Option.mem_def, Option.or_eq_some_iff] at hl
    rcases hl with hl | ⟨_, hl⟩
    · exact h'.last l hl
    · exact h.last l hl
  · intro before l behind heq halternative
    rcases exists_append_of_append_eq heq with ⟨between, rfl, hlines'⟩ | ⟨between, hlines, _⟩
    · exact hresumes between l (h'.resumes between l behind hlines' halternative)
    · exact h.resumes before l between hlines halternative

theorem append_none (h : IndentedAt depth choice? lines) (h' : IndentedAt depth none lines') :
    IndentedAt depth choice? (lines ++ lines') :=
  h.append h' fun _ _ => ResumesIn.append_left lines

/-- A line that is no header. -/
theorem plain (h : l.line.IsPlainAt depth) : IndentedAt depth choice? [l] := by
  refine ⟨?_, ?_, .singleton _, ?_, ?_⟩
  · rw [List.forall_mem_singleton]
    exact h.depth.ge
  · rintro _ ⟨⟩
    exact h.depth
  · rintro _ ⟨⟩
    exact h.not_isHeader
  · intro before l' behind heq halternative
    rcases List.append_eq_singleton_iff.mp heq.symm with ⟨_, hl⟩ | ⟨_, hl⟩
    · cases hl
      exact absurd halternative h.not_isAlternative
    · cases hl

/-- A header with its block. -/
theorem block (hheader : o.line.IsHeader) (hdepth : o.line.depth = depth)
    (hlines : IndentedAt (depth + 1) none lines) (hne : lines ≠ [])
    (hresumes : o.line.IsAlternative → ResumesIn depth choice? [] o) :
    IndentedAt depth choice? (o :: lines) := by
  refine ⟨?_, ?_, ?_, ?_, ?_⟩
  · rw [List.forall_mem_cons]
    exact ⟨hdepth.ge, fun l hl => (Nat.le_succ depth).trans (hlines.le_depth l hl)⟩
  · rintro _ ⟨⟩
    exact hdepth
  · rw [List.isChain_cons]
    refine ⟨fun b hb => ?_, hlines.steps⟩
    exact ⟨iff_of_true hheader (by rw [hlines.first b hb, hdepth]),
      fun hnot => absurd hheader hnot⟩
  · intro l hl
    obtain ⟨last, hlast⟩ := Option.ne_none_iff_exists'.mp (mt List.getLast?_eq_none_iff.mp hne)
    rw [List.getLast?_cons, hlast] at hl
    cases hl
    exact hlines.last last hlast
  · intro before l behind heq halternative
    cases before with
    | nil =>
        cases heq
        exact hresumes halternative
    | cons first before =>
        obtain ⟨rfl, hbehind⟩ := List.cons.inj heq
        exact (hlines.resumes before l behind hbehind halternative).append_left [o]

/-- Nothing but plain lines at one depth. -/
theorem of_forall_plain (h : ∀ l ∈ lines, l.line.IsPlainAt depth) :
    IndentedAt depth none lines := by
  induction lines with
  | nil => exact nil
  | cons l lines ih =>
      rw [List.forall_mem_cons] at h
      exact (plain h.1).append_none (ih h.2)

end IndentedAt

/-- What is known of the lines of code behind a header: those of further alternatives, those that
close the block, and those of what follows. -/
def GoesOn (depth : Nat) (ancestors : List Statement) (first? : Option StatementKind)
    (header? : Option Statement) (lines : List SourcedLine) : Prop :=
  match header? with
  | none => IndentedAt depth none lines
  | some header => ∃ alternatives footer rest,
      lines = alternatives ++ (footer ++ rest) ∧
        IndentedAt depth (some ancestors) alternatives ∧
        IndentedAt (depth + 1) none footer ∧ IndentedAt depth none rest ∧
        (header.kind ≠ .ifThen → alternatives = []) ∧
        (header.kind = .ifThen ∨ header.kind = .region → footer = []) ∧
        (header.kind = .doWhile → footer ≠ []) ∧
        (∀ kind ∈ first?, kind.closesBlock = true → alternatives = [])

end

/-- The line is one of those that are made from a statement. -/
def Spot.Yields (target : Target) (spellings? : Option Spellings) (spot : Spot) (line : CodeLine) :
    Prop :=
  ∃ header? own, line ∈ own ∧
    spot.head.Emits target spellings? (spot.ancestors.countP fun s => s.kind ≠ .region)
      (spot.ancestors.map Statement.kind) header? own

/-- Lines with the statements that they were made from. -/
structure Attributed (spellings? : Option Spellings) (spots : List Spot) (lines : List CodeLine)
    (sourced : List SourcedLine) : Prop where
  lines : sourced.map SourcedLine.line = lines
  yields : ∀ l ∈ sourced, ∀ spot ∈ l.source?, spot ∈ spots ∧ spot.Yields .python spellings? l.line

namespace Attributed

variable {spellings? : Option Spellings}

theorem nil : Attributed spellings? [] [] [] := ⟨rfl, by simp⟩

/-- The lines of a statement, those of what is nested under it with what fills its body, and those
of what follows. -/
theorem cons (spot : Spot) {header? : Option Statement} {spots spots' : List Spot}
    {own inner fillerLines rest : List CodeLine} {nested filler sourced : List SourcedLine}
    (hown : spot.head.Emits .python spellings? (spot.ancestors.countP fun s => s.kind ≠ .region)
      (spot.ancestors.map Statement.kind) header? own)
    (hinner : Attributed spellings? spots inner nested)
    (hfiller : filler.map SourcedLine.line = fillerLines) (hnone : ∀ l ∈ filler, l.source? = none)
    (hrest : Attributed spellings? spots' rest sourced) :
    Attributed spellings? (spot :: (spots ++ spots')) (own ++ (inner ++ fillerLines) ++ rest)
      (own.map (⟨some spot, ·⟩) ++ ((nested ++ filler) ++ sourced)) := by
  refine ⟨?_, ?_⟩
  · simp only [List.map_append, List.map_map, hinner.lines, hfiller, hrest.lines,
      List.append_assoc]
    congr 1
    exact List.map_id own
  · simp only [List.forall_mem_append, List.forall_mem_map]
    refine ⟨?_, ⟨?_, ?_⟩, ?_⟩
    · rintro line hline _ ⟨⟩
      exact ⟨.head _, header?, own, hline, hown⟩
    · intro l hl spot' hspot'
      obtain ⟨hmem, hyields⟩ := hinner.yields l hl spot' hspot'
      exact ⟨.tail _ (List.mem_append_left _ hmem), hyields⟩
    · intro l hl spot' hspot'
      rw [hnone l hl] at hspot'
      cases hspot'
    · intro l hl spot' hspot'
      obtain ⟨hmem, hyields⟩ := hrest.yields l hl spot' hspot'
      exact ⟨.tail _ (List.mem_append_right _ hmem), hyields⟩

/-- The lines of a statement that owns none, and those of what follows. -/
theorem leaf (spot : Spot) {header? : Option Statement} {spots : List Spot}
    {own rest : List CodeLine} {sourced : List SourcedLine}
    (hown : spot.head.Emits .python spellings? (spot.ancestors.countP fun s => s.kind ≠ .region)
      (spot.ancestors.map Statement.kind) header? own)
    (hrest : Attributed spellings? spots rest sourced) :
    Attributed spellings? (spot :: spots) (own ++ rest) (own.map (⟨some spot, ·⟩) ++ sourced) := by
  have h := cons spot hown nil List.map_nil (by simp) hrest
  rwa [List.append_nil, List.append_nil, List.nil_append, List.nil_append] at h

end Attributed

section

variable {spellings? : Option Spellings} {depth : Nat} {ancestors : List Statement}
  {first? : Option StatementKind} {spot : Spot} {own : List CodeLine}
  {around : List StatementKind} {nested filler sourced : List SourcedLine}

/-- A body with what fills it has a line of code, unless a test follows it or it is a region's. -/
theorem exists_filler (kind : StatementKind)
    (hnested : IndentedAt depth none (nested.filter SourcedLine.isCode)) :
    ∃ filler : List SourcedLine,
      filler.map SourcedLine.line =
          Target.python.fillerLines kind depth (nested.map SourcedLine.line) ∧
        (∀ l ∈ filler, l.source? = none) ∧
        IndentedAt depth none ((nested ++ filler).filter SourcedLine.isCode) ∧
        (kind ≠ .doWhile → kind ≠ .region →
          (nested ++ filler).filter SourcedLine.isCode ≠ []) := by
  rw [Target.fillerLines, List.any_map]
  cases hcode : nested.any (CodeLine.isCode ∘ SourcedLine.line) with
  | true =>
      refine ⟨[], rfl, by simp, by rwa [List.append_nil], fun _ _ hnil => ?_⟩
      rw [List.append_nil, List.filter_eq_nil_iff] at hnil
      obtain ⟨l, hl, hcode⟩ := List.any_eq_true.mp hcode
      exact hnil l hl hcode
  | false =>
      have hnil : nested.filter SourcedLine.isCode = [] := by
        rw [List.filter_eq_nil_iff]
        intro l hl hcode'
        rw [List.any_eq_false] at hcode
        exact hcode l hl hcode'
      refine ⟨((Target.python.emptyBody? kind).map fun line => ⟨none, line.indent depth⟩).toList,
        ?_, ?_, ?_, ?_⟩
      · cases Target.python.emptyBody? kind <;> rfl
      · cases Target.python.emptyBody? kind <;> simp
      · rw [List.filter_append, hnil, List.nil_append]
        cases hempty : Target.python.emptyBody? kind with
        | none => exact .nil
        | some line =>
            have hpass : line = { text := "pass" } := by
              revert hempty
              cases kind <;> rintro ⟨⟩ <;> rfl
            rw [hpass]
            exact .plain ⟨rfl, rfl, (by decide : ¬ EndsInColon "pass")⟩
      · intro hdoWhile hregion
        rw [List.filter_append, hnil, List.nil_append]
        revert hdoWhile hregion
        cases kind <;> simp [Target.emptyBody?, Python.emptyBody?, SourcedLine.isCode,
          CodeLine.isCode, CodeLine.indent]

namespace StatementKind

theorem ne_of_continuesBlock {kind : StatementKind} (h : kind.continuesBlock = true) :
    kind ≠ .doWhile ∧ kind ≠ .region ∧ kind.closesBlock = false := by
  revert h
  cases kind <;> decide

/-- Which loop a line closes is seen from its kind. -/
theorem closing_of_follows {header closing : StatementKind} (hclosing : closing.closesBlock = true)
    (h : closing.Follows (some header)) :
    (closing = .endDoWhile ↔ header = .doWhile) ∧
      (closing = .endFor ∨ closing = .endDoWhile → header ≠ .ifThen ∧ header ≠ .region) := by
  have hall : ∀ header ∈ all, ∀ closing ∈ all, closing.closesBlock = true →
      closing.Follows (some header) → (closing = .endDoWhile ↔ header = .doWhile) ∧
        (closing = .endFor ∨ closing = .endDoWhile → header ≠ .ifThen ∧ header ≠ .region) := by
    decide +kernel
  exact hall header header.mem_all closing closing.mem_all hclosing h

end StatementKind

/-- The lines of code of the statement itself. -/
def Spot.code (spot : Spot) (own : List CodeLine) : List SourcedLine :=
  (own.map (⟨some spot, ·⟩)).filter SourcedLine.isCode

theorem Spot.code_of_isPlainAt (h : ∀ l ∈ own, l.IsPlainAt depth) :
    IndentedAt depth none (spot.code own) := by
  apply IndentedAt.of_forall_plain
  intro l hl
  obtain ⟨line, hline, rfl⟩ := List.mem_map.mp (List.mem_filter.mp hl).1
  exact h line hline

theorem Spot.code_eq_nil (h : ∀ l ∈ own, l.isCode = false) : spot.code own = [] := by
  rw [code, List.filter_eq_nil_iff, List.forall_mem_map]
  intro line hline hcode
  rw [SourcedLine.isCode, h line hline] at hcode
  cases hcode

theorem Spot.code_append (own own' : List CodeLine) :
    spot.code (own ++ own') = spot.code own ++ spot.code own' := by
  rw [code, List.map_append, List.filter_append]
  rfl

theorem Spot.code_singleton {line : CodeLine} (h : line.isCode = true) :
    spot.code [line] = [⟨some spot, line⟩] := by
  rw [code, List.map_singleton, List.filter_singleton, SourcedLine.isCode, h]
  rfl

/-- A header stands in front of its block, and what follows goes on from there. -/
theorem indentedAt_header (hspellings : ∀ spellings ∈ spellings?, spellings.Colonless)
    (hkind : spot.head.kind.opensBlock = true)
    (hown : spot.head.Emits .python spellings? depth around none own)
    (hbody : IndentedAt (spot.head.kind.depthInside depth) none nested)
    (hne : spot.head.kind ≠ .doWhile → spot.head.kind ≠ .region → nested ≠ [])
    (hnext : GoesOn depth spot.ancestors first? (some spot.head) sourced) :
    IndentedAt depth none (spot.code own ++ (nested ++ sourced)) := by
  obtain ⟨alternatives, footer, rest, rfl, halternatives, hfooter, hrest, hchoice, hfooterNil,
    hfooterNe, _⟩ := hnext
  by_cases hregion : spot.head.kind = .region
  · -- A region leaves its statements where they are, between two comments.
    obtain ⟨line, rfl, hline⟩ := hown.region hregion
    rw [Spot.code_eq_nil (by simpa using hline), hchoice (by simp [hregion]),
      hfooterNil (.inr hregion)]
    rw [StatementKind.depthInside, if_pos hregion] at hbody
    exact hbody.append_none hrest
  · rw [StatementKind.depthInside, if_neg hregion] at hbody
    obtain ⟨front, line, word, rfl, hfront, hword, hline, hifThen⟩ :=
      hown.header hspellings hkind hregion
    have hheader : (⟨some spot, line⟩ : SourcedLine).line.IsHeader := hline.heads.isHeader hword
    have hblock {lines : List SourcedLine} (hlines : IndentedAt (depth + 1) none lines)
        (hne : lines ≠ []) : IndentedAt depth none (⟨some spot, line⟩ :: lines) :=
      .block hheader hline.depth hlines hne fun halternative =>
        absurd halternative (hline.heads.not_isAlternative hword)
    rw [Spot.code_append, Spot.code_singleton hline.code]
    by_cases hkind' : spot.head.kind = .ifThen
    · obtain ⟨rfl, rfl⟩ := hifThen hkind'
      rw [hfooterNil (.inl hkind')]
      have hopened := hblock hbody (hne (by simp [hkind']) hregion)
      have hchoice := hopened.append halternatives fun before l h =>
        h.opened hline.heads (by simp [hkind']) rfl hline.depth hbody.le_depth
      simpa [Spot.code] using hchoice.append_none hrest
    · rw [hchoice hkind']
      have hbodyNe : nested ++ footer ≠ [] := by
        rw [Ne, List.append_eq_nil_iff, not_and_or]
        by_cases hdoWhile : spot.head.kind = .doWhile
        · exact .inr (hfooterNe hdoWhile)
        · exact .inl (hne hdoWhile hregion)
      have hopened := hblock (hbody.append_none hfooter) hbodyNe
      simpa using ((Spot.code_of_isPlainAt hfront).append_none hopened).append_none hrest

/-- A further alternative of a choice goes on with it. -/
theorem goesOn_alternative {header : Statement} (hheader : header.kind = .ifThen)
    (hkind : spot.head.kind.continuesBlock = true)
    (hleads : spot.head.kind.LeadsTo first?)
    (hown : spot.head.Emits .python spellings? depth around none own)
    (hbody : IndentedAt (spot.head.kind.depthInside depth) none nested)
    (hne : spot.head.kind ≠ .doWhile → spot.head.kind ≠ .region → nested ≠ [])
    (hnext : GoesOn depth spot.ancestors first? (some header) sourced) :
    GoesOn depth spot.ancestors (some spot.head.kind) (some header)
      (spot.code own ++ (nested ++ sourced)) := by
  obtain ⟨alternatives, footer, rest, rfl, halternatives, hfooter, hrest, hchoice, hfooterNil,
    hfooterNe, hcloses⟩ := hnext
  obtain ⟨hdoWhile, hregion, hnotCloses⟩ := StatementKind.ne_of_continuesBlock hkind
  rw [StatementKind.depthInside, if_neg hregion] at hbody
  obtain ⟨line, rfl, hline⟩ := hown.alternative hkind
  have hblock {word : String} (hline : line.HeadsAt depth word)
      (halternative : line.IsAlternative) :
      IndentedAt depth (some spot.ancestors) (⟨some spot, line⟩ :: nested) :=
    .block halternative.isHeader hline.depth hbody (hne hdoWhile hregion)
      fun _ => .inr ⟨_, rfl, hline.depth, rfl, by simp⟩
  have hopen : ∀ kind ∈ some spot.head.kind, kind.closesBlock ≠ true := by
    simpa using hnotCloses
  rcases hline with ⟨_, hline⟩ | ⟨hotherwise, hline⟩
  · have hopened := hblock hline (.inl hline.heads)
    have hwithin : ∀ m ∈ (⟨some spot, line⟩ :: nested : List SourcedLine),
        m.Within depth (some spot.ancestors) := by
      rw [List.forall_mem_cons]
      exact ⟨.inr ⟨hline.depth, hline.heads, rfl⟩, fun m hm => .inl (hbody.le_depth m hm)⟩
    refine ⟨⟨some spot, line⟩ :: nested ++ alternatives, footer, rest, ?_,
      hopened.append halternatives fun before l h => h.append_within hwithin, hfooter, hrest,
      ?_, hfooterNil, hfooterNe, ?_⟩
    · rw [Spot.code_singleton hline.code]
      simp
    · exact fun h => absurd hheader h
    · exact fun kind hkind' hcloses' => absurd hcloses' (hopen kind hkind')
  · -- Behind the last alternative the choice is closed.
    rw [hotherwise] at hleads
    obtain ⟨next, hnext, hmem⟩ := hleads.exists_mem rfl
    rw [List.mem_singleton] at hmem
    have hnil : alternatives = [] := hcloses next hnext (by rw [hmem]; rfl)
    refine ⟨⟨some spot, line⟩ :: nested, footer, rest, ?_, hblock hline (.inr hline.heads),
      hfooter, hrest, fun h => absurd hheader h, hfooterNil, hfooterNe,
      fun kind hkind' hcloses' => absurd hcloses' (hopen kind hkind')⟩
    rw [Spot.code_singleton hline.code, hnil]
    simp

/-- The line that closes a block comes behind the block's last alternative. -/
theorem goesOn_closing (hspellings : ∀ spellings ∈ spellings?, spellings.Colonless)
    {header : Statement} (hkind : spot.head.kind.closesBlock = true)
    (hfits : spot.head.kind.Follows (some header.kind))
    (hown : spot.head.Emits .python spellings? depth around (some header) own)
    (hnext : IndentedAt depth none sourced) :
    GoesOn depth spot.ancestors (some spot.head.kind) (some header) (spot.code own ++ sourced) := by
  have hgoesOn (hfooter : IndentedAt (depth + 1) none (spot.code own))
      (hnil : header.kind = .ifThen ∨ header.kind = .region → spot.code own = [])
      (hne : header.kind = .doWhile → spot.code own ≠ []) :
      GoesOn depth spot.ancestors (some spot.head.kind) (some header) (spot.code own ++ sourced) :=
    ⟨[], spot.code own, sourced, rfl, .nil, hfooter, hnext, fun _ => rfl, hnil, hne,
      fun _ _ _ => rfl⟩
  obtain ⟨hdoWhile, hapart⟩ := StatementKind.closing_of_follows hkind hfits
  rcases hown.closing hspellings hkind with ⟨hkind', hlines⟩ | ⟨hkind', line, rfl, hline⟩ |
    ⟨hkind', test, leave, rfl, htest, hleave⟩
  · refine hgoesOn ?_ (fun _ => Spot.code_eq_nil hlines) fun h => absurd (hdoWhile.mpr h) hkind'
    rw [Spot.code_eq_nil hlines]
    exact .nil
  · obtain ⟨hifThen, hregion⟩ := hapart (.inl hkind')
    refine hgoesOn (Spot.code_of_isPlainAt (by simpa using hline)) ?_ fun _ => ?_
    · rintro (h | h)
      · exact absurd h hifThen
      · exact absurd h hregion
    · rw [Spot.code_singleton hline.code]
      exact List.cons_ne_nil _ _
  · obtain ⟨hifThen, hregion⟩ := hapart (.inr hkind')
    have hcode : spot.code [test, leave] = [⟨some spot, test⟩, ⟨some spot, leave⟩] := by
      rw [← List.singleton_append, Spot.code_append, Spot.code_singleton htest.code,
        Spot.code_singleton hleave.code]
      rfl
    have hword : "if " ∈ ["if ", "while ", "for ", "def "] := by decide
    rw [hcode] at hgoesOn ⊢
    refine hgoesOn (.block (htest.heads.isHeader hword) htest.depth (.plain hleave) (by simp)
      fun h => absurd h (htest.heads.not_isAlternative hword)) ?_ (by simp)
    rintro (h | h)
    · exact absurd h hifThen
    · exact absurd h hregion

/-- The lines that are laid out along a tree are indented as Python asks for. -/
theorem Laid.exists_indented (hspellings : ∀ spellings ∈ spellings?, spellings.Colonless)
    {header? : Option Statement} {b : Block} {lines : List CodeLine}
    (h : Laid .python (Statement.Emits .python spellings?) header? depth around b lines)
    (ancestors : List Statement) (previous : Option Statement)
    (haround : around = ancestors.map Statement.kind)
    (hdepth : depth = ancestors.countP fun s => s.kind ≠ .region) :
    ∃ sourced,
      Attributed spellings? (b.spotsUnder ancestors previous) lines sourced ∧
        GoesOn depth ancestors (b.first?.map Statement.kind) header?
          (sourced.filter SourcedLine.isCode) := by
  induction h generalizing ancestors previous with
  | nil => exact ⟨[], .nil, .nil⟩
  | @plain depth around s next own rest hkind hown _ ihnext =>
      subst haround hdepth
      obtain ⟨sourced, hrest, hnext⟩ := ihnext ancestors (some s) rfl rfl
      refine ⟨_, .leaf ⟨s, .nil, ancestors, previous, next.first?⟩ hown hrest, ?_⟩
      rw [List.filter_append]
      obtain ⟨line, rfl, hline⟩ := hown.plain hspellings hkind
      exact (Spot.code_of_isPlainAt (by simpa using hline)).append_none hnext
  | @header depth around s body next own inner rest hkind hown _ _ ihbody ihnext =>
      subst haround hdepth
      obtain ⟨nested, hinner, hbody⟩ :=
        ihbody (s :: ancestors) none rfl (depthInside_countP s ancestors)
      obtain ⟨sourced, hrest, hnext⟩ := ihnext ancestors (some s) rfl rfl
      obtain ⟨filler, hfiller, hnone, hfilled, hne⟩ := exists_filler s.kind hbody
      rw [hinner.lines] at hfiller
      refine ⟨_, .cons ⟨s, body, ancestors, previous, next.first?⟩ hown hinner hfiller hnone hrest,
        ?_⟩
      rw [List.filter_append, List.filter_append]
      exact indentedAt_header hspellings hkind hown hfilled hne hnext
  | @alternative depth around header s body next own inner rest hheader hkind hleads hown _ _
      ihbody ihnext =>
      subst haround hdepth
      obtain ⟨nested, hinner, hbody⟩ :=
        ihbody (s :: ancestors) none rfl (depthInside_countP s ancestors)
      obtain ⟨sourced, hrest, hnext⟩ := ihnext ancestors (some s) rfl rfl
      obtain ⟨filler, hfiller, hnone, hfilled, hne⟩ := exists_filler s.kind hbody
      rw [hinner.lines] at hfiller
      refine ⟨_, .cons ⟨s, body, ancestors, previous, next.first?⟩ hown hinner hfiller hnone hrest,
        ?_⟩
      rw [List.filter_append, List.filter_append]
      exact goesOn_alternative hheader hkind hleads hown hfilled hne hnext
  | @closing depth around header s next own rest hkind hfits hown _ ihnext =>
      subst haround hdepth
      obtain ⟨sourced, hrest, hnext⟩ := ihnext ancestors (some s) rfl rfl
      refine ⟨_, .leaf ⟨s, .nil, ancestors, previous, next.first?⟩ hown hrest, ?_⟩
      rw [List.filter_append]
      exact goesOn_closing hspellings hkind hfits hown hnext

/-- What a program that draws random numbers starts with. -/
def Python.randomPrologue : List SourcedLine :=
  Python.randomImport.map fun line => ⟨none, line⟩

theorem indentedAt_randomPrologue :
    IndentedAt 0 none (Python.randomPrologue.filter SourcedLine.isCode) := by
  apply IndentedAt.of_forall_plain
  intro l hl
  have hplain : ∀ line ∈ Python.randomImport, line.IsPlainAt 0 := by
    rw [Python.randomImport, List.forall_mem_cons, List.forall_mem_singleton]
    exact ⟨⟨rfl, rfl, by decide⟩, ⟨rfl, rfl, by decide⟩⟩
  obtain ⟨line, hline, rfl⟩ := List.mem_map.mp (List.mem_filter.mp hl).1
  exact hplain line hline

theorem IndentedAt.indented {lines : List SourcedLine} (h : IndentedAt 0 none lines) :
    Indented lines := by
  refine ⟨h.first, h.steps, h.last, fun before l behind heq halternative => ?_⟩
  rcases h.resumes before l behind heq halternative with hresumes | ⟨_, ⟨⟩, _⟩
  exact hresumes

/-- The lines of code of a program without findings are indented in Python as its blocks are
nested. -/
theorem Block.generate_indented {program : Block} {options : RenderOptions} {code : String}
    (hspellings : ∀ spellings ∈ spellings?, spellings.Colonless) (hvalid : program.validate = [])
    (hcode : program.generate .python options spellings? = .ok code) :
    ∃ prologue body : List SourcedLine,
      code =
          String.join ((prologue ++ body).map fun l => l.line.layout options.indentWidth) ∧
        (prologue = [] ∨ prologue = Python.randomPrologue) ∧
        Laid .python (Statement.Emits .python spellings?) none 0 [] program
          (body.map SourcedLine.line) ∧
        (∀ l ∈ body, ∀ spot ∈ l.source?,
          spot ∈ program.spots ∧ spot.Yields .python spellings? l.line) ∧
        Indented ((prologue ++ body).filter SourcedLine.isCode) := by
  obtain ⟨lines, hlines, rfl⟩ := map_eq_ok_iff.mp hcode
  obtain ⟨passages, hpassages, rfl⟩ := map_eq_ok_iff.mp hlines
  have hform := wellFormed_of_validate hvalid
  rw [document, importingPassages] at hpassages
  obtain ⟨bodyPassages, hbody, hpassages⟩ := bind_eq_ok_iff.mp hpassages
  have hlaid := laid_of_passages_nil hform.orderly hform.scoped hbody
  obtain ⟨body, hattributed, hgoesOn⟩ := hlaid.exists_indented hspellings [] none rfl rfl
  have hprologue : ∃ prologue : List SourcedLine,
      (prologue = [] ∨ prologue = Python.randomPrologue) ∧
        passages.flatMap Passage.lines = (prologue ++ body).map SourcedLine.line ∧
        IndentedAt 0 none (prologue.filter SourcedLine.isCode) := by
    split at hpassages
    · cases hpassages
      refine ⟨Python.randomPrologue, .inr rfl, ?_, indentedAt_randomPrologue⟩
      rw [List.map_append, hattributed.lines]
      rfl
    · cases hpassages
      exact ⟨[], .inl rfl, hattributed.lines.symm, .nil⟩
  obtain ⟨prologue, hprologue, hlines, hindented⟩ := hprologue
  refine ⟨prologue, body, ?_, hprologue, ?_, hattributed.yields, ?_⟩
  · rw [hlines, List.map_map]
    rfl
  · rw [hattributed.lines]
    exact hlaid
  · rw [List.filter_append]
    exact (hindented.append_none hgoesOn).indented

end

/-- A loop with its test at the end, and a choice with an empty alternative and with a loop over
fractions. -/
def rollAndChoose : Block :=
  let fractions : Block :=
    .cons ⟨"for", .forIncrement, ["x", "0", "1.5", "0.5"], false, false⟩ .nil
      (.cons ⟨"next", .endFor, [], false, false⟩ .nil .nil)
  .cons ⟨"do", .doWhile, ["n < 6"], false, false⟩
    (.cons ⟨"roll", .assign, ["n", "Random(1, 6)"], false, false⟩ .nil .nil)
    (.cons ⟨"while", .endDoWhile, [], false, false⟩ .nil
      (.cons ⟨"if", .ifThen, ["n > 3"], false, false⟩ .nil
        (.cons ⟨"elif", .elseIf, ["n > 1"], false, false⟩ fractions
          (.cons ⟨"else", .otherwise, [], false, false⟩
            (.cons ⟨"show", .output, ["n"], false, false⟩ .nil .nil)
            (.cons ⟨"fi", .endIf, [], false, false⟩ .nil .nil)))))

/-- Bodies without code are filled, except where a test or a step stands at their end. -/
def rollAndChooseInPython : String :=
  "import random\n\nwhile True:\n    n = random.randint(1, 6)\n    if not (n < 6):\n"
    ++ "        break\nif n > 3:\n    pass\nelif n > 1:\n    x = 0\n    while x <= 1.5:\n"
    ++ "        pass\n        x += 0.5\nelse:\n    print(n)\n"

theorem generate_indented_rollAndChoose :
    (∀ spellings ∈ (none : Option Spellings), spellings.Colonless) ∧
      rollAndChoose.validate = [] ∧
      rollAndChoose.generate .python {} none = .ok rollAndChooseInPython ∧
      ∃ prologue body : List SourcedLine,
        rollAndChooseInPython =
            String.join ((prologue ++ body).map fun l =>
              l.line.layout ({} : RenderOptions).indentWidth) ∧
          (prologue = [] ∨ prologue = Python.randomPrologue) ∧
          Laid .python (Statement.Emits .python none) none 0 [] rollAndChoose
            (body.map SourcedLine.line) ∧
          (∀ l ∈ body, ∀ spot ∈ l.source?,
            spot ∈ rollAndChoose.spots ∧ spot.Yields .python none l.line) ∧
          Indented ((prologue ++ body).filter SourcedLine.isCode) := by
  have hspellings : ∀ spellings ∈ (none : Option Spellings), spellings.Colonless := by simp
  have hvalid : rollAndChoose.validate = [] := by decide +kernel
  have hcode : rollAndChoose.generate .python {} none = .ok rollAndChooseInPython := by
    decide +kernel
  have h := Block.generate_indented hspellings hvalid hcode
  exact ⟨hspellings, hvalid, hcode, h⟩

end BlockCode
