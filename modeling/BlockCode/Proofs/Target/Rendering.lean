/- # Rendering checked programs

A program without findings is rendered into every target, with the spellings that code points
give. The one thing that can go wrong is arithmetic: a counting loop whose end or step lies at the
edge of the integers.
-/

import BlockCode.Proofs.Target.Actions
import BlockCode.Proofs.Target.Openers
import BlockCode.Target.Render

namespace BlockCode

variable {target : Target} {spellings? : Option Spellings}

/-- The passage of a checked statement among open lines that fit. -/
theorem Statement.passage_overflowsOnlyIf
    (hspellings : ∀ spellings ∈ spellings?, spellings.Lettered) {s : Statement}
    (hs : s.Checked) {previous : Option StatementKind} (hfollows : s.kind.Follows previous)
    {openers : List Statement} (hawaits : Awaits previous openers)
    (hopeners : ∀ opener ∈ openers, opener.Checked) (place : Place) :
    OverflowsOnlyIf (s.passage target spellings? place openers) (s.OverflowsIn target) := by
  obtain ⟨action, haction, hgives⟩ :
      ∃ action, s.action target place.loop? (s.opener? openers) = .ok action ∧ s.Gives action := by
    apply hs.exists_action_eq
    · exact hawaits.follows_opener hfollows
    · intro opener hopener
      exact hopeners opener (mem_of_opener? hopener)
  rw [passage, haction]
  apply OverflowsOnlyIf.bind (.ok action)
  intro action' haction'
  cases haction'
  apply OverflowsOnlyIf.bind (lines_overflowsOnlyIf hspellings hgives)
  intro lines _
  exact .ok _

namespace Block

/-- A statement of the block makes its rendering overflow. -/
def OverflowsIn (b : Block) (target : Target) : Prop :=
  ∃ s ∈ b.statements, s.OverflowsIn target

theorem OverflowsIn.mono {b b' : Block} (h : b.OverflowsIn target)
    (hsub : ∀ s ∈ b.statements, s ∈ b'.statements) : b'.OverflowsIn target := by
  obtain ⟨s, hs, hoverflows⟩ := h
  exact ⟨s, hsub s hs, hoverflows⟩

/-- The passages of a block of checked statements whose neighbours agree. -/
theorem passages_overflowsOnlyIf (hspellings : ∀ spellings ∈ spellings?, spellings.Lettered)
    {b : Block} {previous : Option StatementKind} (hb : b.Orderly previous)
    (hchecked : ∀ s ∈ b.statements, s.Checked) {openers : List Statement}
    (hawaits : Awaits previous openers) (hopeners : ∀ opener ∈ openers, opener.Checked)
    (place : Place) :
    OverflowsOnlyIf (b.passages target spellings? place openers) (b.OverflowsIn target) := by
  induction b generalizing previous openers place with
  | nil => exact .ok []
  | cons head body next ihbody ihnext =>
      obtain ⟨_, hfollows, hbody, hnext⟩ := hb
      rw [statements, List.forall_mem_cons, List.forall_mem_append] at hchecked
      obtain ⟨hhead, hcheckedbody, hcheckednext⟩ := hchecked
      have hown : OverflowsOnlyIf (head.passage target spellings? place openers)
          ((cons head body next).OverflowsIn target) :=
        (head.passage_overflowsOnlyIf hspellings hhead hfollows hawaits hopeners place).mono
          fun hoverflows => ⟨head, .head _, hoverflows⟩
      have hnested : OverflowsOnlyIf
          (body.passages target spellings? (place.inside head.kind) [])
          ((cons head body next).OverflowsIn target) :=
        (ihbody hbody hcheckedbody (.none []) (by simp) (place.inside head.kind)).mono
          fun hoverflows => hoverflows.mono fun s hs => .tail _ (List.mem_append_left _ hs)
      have hopenersbehind : ∀ opener ∈ head.openersBehind openers, opener.Checked := by
        intro opener hopener
        rcases Statement.mem_openersBehind hopener with rfl | hopener
        · exact hhead
        · exact hopeners opener hopener
      have hrest : OverflowsOnlyIf
          (next.passages target spellings? place (head.openersBehind openers))
          ((cons head body next).OverflowsIn target) :=
        (ihnext hnext hcheckednext (hawaits.behind hfollows) hopenersbehind place).mono
          fun hoverflows => hoverflows.mono fun s hs => .tail _ (List.mem_append_right _ hs)
      rw [passages]
      dsimp only
      apply hown.bind
      intro own _
      split
      · apply hnested.bind
        intro nested _
        apply OverflowsOnlyIf.bind (.ok _)
        intro nested' _
        apply hrest.bind
        intro rest _
        exact .ok _
      · apply OverflowsOnlyIf.bind (.ok _)
        intro nested _
        apply hrest.bind
        intro rest _
        exact .ok _

/-- The passages of a whole program. -/
theorem document_overflowsOnlyIf (hspellings : ∀ spellings ∈ spellings?, spellings.Lettered)
    {program : Block}
    (hprogram : program.Orderly none) (hchecked : ∀ s ∈ program.statements, s.Checked)
    (options : RenderOptions) :
    OverflowsOnlyIf (program.document target options spellings?)
      (program.OverflowsIn target) := by
  have whole (target : Target) : OverflowsOnlyIf (program.passages target spellings? {} [])
      (program.OverflowsIn target) :=
    passages_overflowsOnlyIf hspellings hprogram hchecked (.none []) (by simp) {}
  cases target with
  | javaScript => exact whole .javaScript
  | ruby => exact whole .ruby
  | python =>
      rw [document, importingPassages]
      apply (whole .python).bind
      intro body _
      split
      · exact .ok _
      · exact .ok _
  | vba =>
      have hsplit := hprogram.splitsOrderly
      have hfunctions : OverflowsOnlyIf
          ((program.splitFunctions false).1.passages .vba spellings? {} [])
          (program.OverflowsIn .vba) :=
        (passages_overflowsOnlyIf hspellings (hsplit.functions .none)
          (fun s hs => hchecked s (mem_statements_splitFunctions (.inl hs))) (.none []) (by simp)
          {}).mono fun h => h.mono fun s hs => mem_statements_splitFunctions (.inl hs)
      have hmain : OverflowsOnlyIf
          ((program.splitFunctions false).2.passages .vba spellings? { depth := 1 } [])
          (program.OverflowsIn .vba) :=
        (passages_overflowsOnlyIf hspellings hsplit.main
          (fun s hs => hchecked s (mem_statements_splitFunctions (.inr hs))) (.none []) (by simp)
          { depth := 1 }).mono fun h => h.mono fun s hs => mem_statements_splitFunctions (.inr hs)
      rw [document, procedurePassages]
      apply hfunctions.bind
      intro functions _
      apply hmain.bind
      intro main _
      exact .ok _

theorem checkSpelled_of_unspelled {program : Block} (h : program.unspelled spellings? = []) :
    program.checkSpelled target spellings? = .ok () := by
  rw [checkSpelled]
  split
  · rw [h]
  · rfl

/-- Names that are resolved are no names that the target cannot spell. -/
theorem checkSpelled_eq_ok {program : Block} {spellings : Spellings}
    (hnames : spellings.map Prod.fst = program.nonAsciiIdentifiers) :
    program.checkSpelled target (some spellings) = .ok () := by
  apply checkSpelled_of_unspelled
  rw [unspelled, List.filter_eq_nil_iff, ← hnames]
  intro name hname hnone
  obtain ⟨entry, hentry, rfl⟩ := List.mem_map.mp hname
  rw [Option.isNone_iff_eq_none, Spellings.spelling?, List.lookup_eq_none_iff] at hnone
  have hne := hnone entry hentry
  simp at hne

/-- A program without findings is rendered, where all its names can be spelled. -/
theorem renderWith_of_checkSpelled {program : Block} (hvalid : program.validate = [])
    (hspelled : program.checkSpelled target spellings? = .ok ()) (options : RenderOptions) :
    program.renderWith target options spellings? = program.generate target options spellings? := by
  rw [renderWith, checkValid, hvalid]
  change program.renderChecked target options spellings? = _
  rw [renderChecked, hspelled]
  rfl

/-- A program without findings is rendered into every target, with the names spelled by code
points and with any settings, unless a counting loop in it overflows. -/
theorem renderWith_of_validate {program : Block} (hvalid : program.validate = [])
    (target : Target) (options : RenderOptions) :
    ∃ spellings,
      (({} : SpellingSession).spellingsFor codePointSpeller program).1 = .ok spellings ∧
        ((∃ code, program.renderWith target options spellings = .ok code) ∨
          (∃ operation,
            program.renderWith target options spellings = .error (.overflow operation)) ∧
          ∃ s ∈ program.statements, s.OverflowsIn target) := by
  obtain ⟨spellings, hresolve, hnames, hlettered⟩ :
      ∃ spellings, (({} : SpellingSession).resolveProgram codePointSpeller program).1 =
          .ok spellings ∧
        spellings.map Prod.fst = program.nonAsciiIdentifiers ∧ spellings.Lettered := by
    apply SpellingSession.resolveAll_codePointSpeller
    · simp [Spellings.Lettered]
    · intro name hname
      simpa [nonAsciiIdentifiers] using (List.mem_filter.mp hname).2
  refine ⟨spellings, ?_, ?_⟩
  · rw [SpellingSession.spellingsFor]
    change Except.mapError _ (({} : SpellingSession).resolveProgram codePointSpeller program).1 = _
    rw [hresolve]
    rfl
  · have hgenerate : OverflowsOnlyIf (program.generate target options spellings)
        (program.OverflowsIn target) :=
      (document_overflowsOnlyIf (by rintro _ ⟨⟩; exact hlettered)
        (wellFormed_of_validate hvalid).orderly (checked_of_validate hvalid) options).map.map
    rw [renderWith_of_checkSpelled hvalid (checkSpelled_eq_ok hnames)]
    exact hgenerate

end Block

/-- A loop up to the largest integer, with a variable that is not ASCII. -/
def countToGreatest : Block :=
  .cons ⟨"loop", .forIncrement, ["数", "1", "9223372036854775807", "1"], false, false⟩
    (.cons ⟨"inner", .output, ["数"], false, false⟩ .nil .nil)
    (.cons ⟨"end", .endFor, [], false, false⟩ .nil .nil)

/-- The loop has no finding, and its rendering has an outcome in a target that takes ASCII names
only. -/
theorem renderWith_countToGreatest :
    countToGreatest.validate = [] ∧
      ∃ spellings,
        (({} : SpellingSession).spellingsFor codePointSpeller countToGreatest).1 =
            .ok spellings ∧
          ((∃ code, countToGreatest.renderWith .vba {} spellings = .ok code) ∨
            (∃ operation,
              countToGreatest.renderWith .vba {} spellings = .error (.overflow operation)) ∧
            ∃ s ∈ countToGreatest.statements, s.OverflowsIn .vba) := by
  have hvalid : countToGreatest.validate = [] := by decide +kernel
  exact ⟨hvalid, Block.renderWith_of_validate hvalid .vba {}⟩

/-- The end of its range lies behind the largest integer. -/
example : countToGreatest.renderWith .python {} (some [("数", "v_u6570")]) =
    .error (.overflow .add) := by
  decide +kernel

end BlockCode
