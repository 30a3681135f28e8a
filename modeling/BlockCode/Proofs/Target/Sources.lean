/- # Where lines come from

A line of code is made from one statement: from the expressions in its slots, the name of its
function and its label. Only a line that closes a block is made from another statement too, the
header of the block. What is left are lines that frame a program or fill an empty body, and they are
the same for every program.

So a condition on lines holds of a whole program where the lines of each statement keep it.
-/

import BlockCode.Proofs.Target.Actions
import BlockCode.Proofs.Target.Layout
import BlockCode.Proofs.Target.VbaAscii

namespace BlockCode

open Vba (functionName? label?)

/-- What an action is about stands in the slots of the given statements. -/
structure Action.From (sources : List Statement) (action : Action) : Prop where
  exprs : ∀ e ∈ action.exprs, ∃ s ∈ sources, e ∈ s.readableExprs
  name : ∀ name ∈ functionName? action, ∃ s ∈ sources,
    (s.kind = .defineFunction ∨ s.kind = .callFunction) ∧ name = s.plainSlot 0
  label : ∀ label ∈ label? action, ∃ s ∈ sources, s.kind = .region ∧ label = s.plainSlot 0

namespace Statement

variable {s : Statement} {target : Target} {loop? : Option StatementKind}
  {header? : Option Statement} {action : Action} {slot n : Nat} {exprs : List Expr} {e : Expr}

theorem mem_readableExprs (hslot : slot ∈ s.expressionSlots) (hread : s.readSlot slot = .ok exprs)
    (he : e ∈ exprs) : e ∈ s.readableExprs := by
  rw [readableExprs, List.mem_flatMap]
  refine ⟨slot, hslot, ?_⟩
  rw [hread]
  exact he

theorem readSlot_of_exprIn (hlist : s.kind.isListSlot slot = false) (he : s.exprIn slot = .ok e) :
    s.readSlot slot = .ok [e] := by
  rw [readSlot, hlist, if_neg Bool.false_ne_true, mapError_eq_ok_iff.mp he]
  rfl

theorem readSlot_of_exprsIn (hlist : s.kind.isListSlot slot = true)
    (hexprs : s.exprsIn slot = .ok exprs) : s.readSlot slot = .ok exprs := by
  rw [readSlot, hlist, if_pos rfl, mapError_eq_ok_iff.mp hexprs]

namespace Checked

variable (h : s.Checked)

include h

/-- The expression in a slot is one of the statement. -/
theorem mem_of_exprIn (hn : s.kind.arity? = some n) (hslot : slot < n) (hregion : s.kind ≠ .region)
    (hlist : s.kind.isListSlot slot = false) (he : s.exprIn slot = .ok e) :
    e ∈ s.readableExprs :=
  mem_readableExprs (h.mem_expressionSlots hn hslot hregion) (readSlot_of_exprIn hlist he) (.head _)

/-- So are the expressions in a list slot. -/
theorem mem_of_exprsIn (hn : s.kind.arity? = some n) (hslot : slot < n)
    (hregion : s.kind ≠ .region) (hlist : s.kind.isListSlot slot = true)
    (hexprs : s.exprsIn slot = .ok exprs) : ∀ e ∈ exprs, e ∈ s.readableExprs :=
  fun _ he => mem_readableExprs (h.mem_expressionSlots hn hslot hregion)
    (readSlot_of_exprsIn hlist hexprs) he

/-- What the end of a counting loop needs is in the header. -/
theorem mem_of_loopFooter {closing : Statement} {footer : LoopFooter}
    (hkind : s.kind = .forIncrement ∨ s.kind = .forDecrement)
    (hfooter : closing.loopFooter target (some s) = .ok footer) :
    ∀ e ∈ (Action.endCount footer).exprs, e ∈ s.readableExprs := by
  have read {slot : Nat} (hslot : slot < 4) {e : Expr} (he : s.exprIn slot = .ok e) :
      e ∈ s.readableExprs := by
    refine h.mem_of_exprIn (n := 4) ?_ hslot ?_ ?_ he <;>
      rcases hkind with hkind | hkind <;> rw [hkind]
    all_goals first | rfl | exact Bool.and_false _ | decide
  cases target with
  | javaScript | ruby =>
      cases hfooter
      simp [Action.exprs]
  | vba =>
      obtain ⟨_, ⟨⟩, hfooter⟩ := bind_eq_ok_iff.mp hfooter
      obtain ⟨counter, hcounter, ⟨⟩⟩ := bind_eq_ok_iff.mp hfooter
      rw [Action.exprs, List.forall_mem_singleton]
      exact read (by decide) hcounter
  | python =>
      obtain ⟨_, ⟨⟩, hfooter⟩ := bind_eq_ok_iff.mp hfooter
      obtain ⟨found, -, hfooter⟩ := bind_eq_ok_iff.mp hfooter
      split at hfooter
      · obtain ⟨counter, hcounter, hfooter⟩ := bind_eq_ok_iff.mp hfooter
        obtain ⟨step, hstep, ⟨⟩⟩ := bind_eq_ok_iff.mp hfooter
        rw [Action.exprs, List.forall_mem_cons, List.forall_mem_singleton]
        exact ⟨read (by decide) hcounter, read (by decide) hstep⟩
      · cases hfooter
        simp [Action.exprs]

end Checked

/-- A checked statement has an action from its own slots and those of its header. -/
theorem action_from (h : s.Checked) (hheader : ∀ header ∈ header?, header.Checked)
    (hfits : s.kind.closesBlock = true → s.kind.Follows (header?.map Statement.kind))
    (haction : s.action target loop? header? = .ok action) :
    action.From (s :: header?.toList) := by
  obtain ⟨id, kind, slots, isConstant, collapsed⟩ := s
  have ofExprs {sources : List Statement} {action : Action} (source : Statement)
      (hsource : source ∈ sources) (hexprs : ∀ e ∈ action.exprs, e ∈ source.readableExprs)
      (hname : functionName? action = none) (hlabel : label? action = none) :
      action.From sources :=
    ⟨fun e he => ⟨source, hsource, hexprs e he⟩, by simp [hname], by simp [hlabel]⟩
  cases kind with
  | assign | bulkAssign | increment | decrement =>
      obtain ⟨left, hleft, haction⟩ := bind_eq_ok_iff.mp haction
      obtain ⟨right, hright, ⟨⟩⟩ := bind_eq_ok_iff.mp haction
      refine ofExprs _ (.head _) ?_ rfl rfl
      rw [Action.exprs, List.forall_mem_cons, List.forall_mem_singleton]
      exact ⟨h.mem_of_exprIn rfl (by decide) (by simp) rfl hleft,
        h.mem_of_exprIn rfl (by decide) (by simp) rfl hright⟩
  | initializeArray =>
      obtain ⟨items, hitems, haction⟩ := bind_eq_ok_iff.mp haction
      obtain ⟨left, hleft, ⟨⟩⟩ := bind_eq_ok_iff.mp haction
      refine ofExprs _ (.head _) ?_ rfl rfl
      rw [Action.exprs, List.forall_mem_cons]
      exact ⟨h.mem_of_exprIn rfl (by decide) (by simp) rfl hleft,
        h.mem_of_exprsIn rfl (by decide) (by simp) rfl hitems⟩
  | output =>
      obtain ⟨items, hitems, ⟨⟩⟩ := bind_eq_ok_iff.mp haction
      refine ofExprs _ (.head _) (fun e he => ?_) rfl rfl
      obtain ⟨slot, hslot, he⟩ := exists_of_mem_mapM hitems e he
      exact mem_readableExprs hslot (readSlot_of_exprIn (Bool.and_false _) he) (.head _)
  | ifThen | elseIf | whileLoop =>
      obtain ⟨condition, hcondition, ⟨⟩⟩ := bind_eq_ok_iff.mp haction
      refine ofExprs _ (.head _) ?_ rfl rfl
      rw [Action.exprs, List.forall_mem_singleton]
      exact h.mem_of_exprIn rfl (by decide) (by simp) rfl hcondition
  | otherwise | endIf | endWhile | doWhile | endFunction | breakLoop =>
      cases haction
      exact ofExprs _ (.head _) (by simp [Action.exprs]) rfl rfl
  | endDoWhile =>
      obtain ⟨header, rfl, hkind⟩ := exists_opener (hfits rfl) rfl
      have hkind := List.mem_singleton.mp hkind
      obtain ⟨_, ⟨⟩, haction⟩ := bind_eq_ok_iff.mp haction
      obtain ⟨condition, hcondition, ⟨⟩⟩ := bind_eq_ok_iff.mp haction
      refine ofExprs header (by simp) ?_ rfl rfl
      rw [Action.exprs, List.forall_mem_singleton]
      exact (hheader header rfl).mem_of_exprIn (n := 1) (by rw [hkind]; rfl) (by decide)
        (by rw [hkind]; decide) rfl hcondition
  | forIncrement | forDecrement =>
      obtain ⟨counter, hcounter, haction⟩ := bind_eq_ok_iff.mp haction
      obtain ⟨first, hfirst, haction⟩ := bind_eq_ok_iff.mp haction
      obtain ⟨last, hlast, haction⟩ := bind_eq_ok_iff.mp haction
      obtain ⟨step, hstep, ⟨⟩⟩ := bind_eq_ok_iff.mp haction
      refine ofExprs _ (.head _) ?_ rfl rfl
      rw [Action.exprs, List.forall_mem_cons, List.forall_mem_cons, List.forall_mem_cons,
        List.forall_mem_singleton]
      exact ⟨h.mem_of_exprIn rfl (by decide) (by simp) rfl hcounter,
        h.mem_of_exprIn rfl (by decide) (by simp) rfl hfirst,
        h.mem_of_exprIn rfl (by decide) (by simp) rfl hlast,
        h.mem_of_exprIn rfl (by decide) (by simp) rfl hstep⟩
  | endFor =>
      obtain ⟨header, rfl, hkind⟩ := exists_opener (hfits rfl) rfl
      obtain ⟨footer, hfooter, ⟨⟩⟩ := bind_eq_ok_iff.mp haction
      refine ofExprs header (by simp) ?_ rfl rfl
      exact (hheader header rfl).mem_of_loopFooter (by simpa using hkind) hfooter
  | defineFunction | callFunction =>
      obtain ⟨items, hitems, ⟨⟩⟩ := bind_eq_ok_iff.mp haction
      refine ⟨fun e he => ⟨_, .head _, h.mem_of_exprsIn rfl (by decide) (by simp) rfl hitems e he⟩,
        fun name hname => ⟨_, .head _, by simp, (Option.some.inj hname).symm⟩, by simp [label?]⟩
  | region =>
      cases haction
      exact ⟨by simp [Action.exprs], by simp [functionName?],
        fun label hlabel => ⟨_, .head _, rfl, (Option.some.inj hlabel).symm⟩⟩
  | endRegion =>
      obtain ⟨header, rfl, hkind⟩ := exists_opener (hfits rfl) rfl
      cases haction
      exact ⟨by simp [Action.exprs], by simp [functionName?], fun label hlabel =>
        ⟨header, by simp, List.mem_singleton.mp hkind, (Option.some.inj hlabel).symm⟩⟩

end Statement

/-! ## Conditions on lines -/

section

variable {target : Target} {Own : LineCondition} {Q : Statement → Prop} {depth : Nat}
  {around : List StatementKind} {header? : Option Statement} {b : Block} {lines : List CodeLine}

/-- What the lines of every statement satisfy can be strengthened where all statements have some
property. A statement that closes a block is read with the header of it. -/
theorem Laid.imp {Own' : LineCondition}
    (hown : ∀ {depth around header? s own}, Q s → (∀ header ∈ header?, Q header) →
      (s.kind.closesBlock = true → s.kind.Follows (header?.map Statement.kind)) →
      Own depth around header? s own → Own' depth around header? s own)
    (h : Laid target Own header? depth around b lines)
    (hheader : ∀ header ∈ header?, Q header) (hb : ∀ s ∈ b.statements, Q s) :
    Laid target Own' header? depth around b lines := by
  induction h with
  | nil => exact .nil _ _
  | plain hkind hlines _ ihnext =>
      rw [Block.statements, List.forall_mem_cons, List.forall_mem_append] at hb
      have hcloses := (StatementKind.opensBlock_of_isPlain hkind).2
      exact .plain hkind (hown hb.1 (by simp) (by simp [hcloses]) hlines) (ihnext (by simp) hb.2.2)
  | header hkind hlines _ _ ihbody ihnext =>
      rw [Block.statements, List.forall_mem_cons, List.forall_mem_append] at hb
      have hcloses := (StatementKind.closesBlock_of_opensBlock hkind).1
      exact .header hkind (hown hb.1 (by simp) (by simp [hcloses]) hlines)
        (ihbody (by simp) hb.2.1) (ihnext (fun _ hmem => Option.some.inj hmem ▸ hb.1) hb.2.2)
  | alternative hopens hkind hleads hlines _ _ ihbody ihnext =>
      rw [Block.statements, List.forall_mem_cons, List.forall_mem_append] at hb
      have hcloses := (StatementKind.opening_of_continuesBlock hkind).2.1
      exact .alternative hopens hkind hleads (hown hb.1 (by simp) (by simp [hcloses]) hlines)
        (ihbody (by simp) hb.2.1) (ihnext hheader hb.2.2)
  | closing hkind hfits hlines _ ihnext =>
      rw [Block.statements, List.forall_mem_cons, List.forall_mem_append] at hb
      exact .closing hkind hfits (hown hb.1 hheader (fun _ => hfits) hlines)
        (ihnext (by simp) hb.2.2)

/-- A condition holds of all lines that are laid out if the lines of every statement keep it, and if
what fills an empty body does. -/
theorem Laid.forall_mem {P : CodeLine → Prop}
    (hfiller : ∀ kind depth, ∀ line ∈ target.emptyBody? kind, P (line.indent depth))
    (hown : ∀ {depth around header? s own}, Q s → (∀ header ∈ header?, Q header) →
      (s.kind.closesBlock = true → s.kind.Follows (header?.map Statement.kind)) →
      Own depth around header? s own → ∀ line ∈ own, P line)
    (h : Laid target Own header? depth around b lines)
    (hheader : ∀ header ∈ header?, Q header) (hb : ∀ s ∈ b.statements, Q s) :
    ∀ line ∈ lines, P line := by
  have hfillers (kind : StatementKind) (depth : Nat) (body : List CodeLine) :
      ∀ line ∈ target.fillerLines kind depth body, P line := by
    rw [Target.fillerLines]
    split
    · simp
    · intro line hline
      obtain ⟨filler, hmem, rfl⟩ := Option.map_eq_some_iff.mp (Option.mem_toList.mp hline)
      exact hfiller kind depth filler hmem
  have hlaid : Laid target (fun _ _ _ _ own => ∀ line ∈ own, P line) header? depth around b lines :=
    h.imp hown hheader hb
  clear h hheader hb
  induction hlaid with
  | nil => simp
  | plain _ hlines _ ihnext | closing _ _ hlines _ ihnext =>
      rw [List.forall_mem_append]
      exact ⟨hlines, ihnext⟩
  | header _ hlines _ _ ihbody ihnext | alternative _ _ _ hlines _ _ ihbody ihnext =>
      simp only [List.forall_mem_append]
      exact ⟨⟨hlines, ihbody, hfillers _ _ _⟩, ihnext⟩

end

/-- The lines around a program, which come from none of its statements. -/
def Target.frameLines (target : Target) (options : RenderOptions) : List CodeLine :=
  match target with
  | .javaScript | .ruby => []
  | .python => Python.randomImport
  | .vba => [{ text := "" }, Vba.entryLine options.entryPoint, Vba.exitLine]

/-- A condition holds of all lines of a program if the lines of every statement keep it, and if it
holds of the lines that frame the program and of what fills an empty body. -/
theorem Block.forall_mem_codeLines {program : Block} {target : Target} {options : RenderOptions}
    {spellings? : Option Spellings} {P : CodeLine → Prop} {Q : Statement → Prop}
    (horderly : program.Orderly none) (hscoped : program.Scoped)
    (hframe : ∀ line ∈ target.frameLines options, P line)
    (hfiller : ∀ kind depth, ∀ line ∈ target.emptyBody? kind, P (line.indent depth))
    (hown : ∀ {depth around header? s own}, Q s → (∀ header ∈ header?, Q header) →
      (s.kind.closesBlock = true → s.kind.Follows (header?.map Statement.kind)) →
      s.Emits target spellings? depth around header? own → ∀ line ∈ own, P line)
    (hstatements : ∀ s ∈ program.statements, Q s) {lines : List CodeLine}
    (h : program.codeLines target options spellings? = .ok lines) : ∀ line ∈ lines, P line := by
  have part {b : Block} {depth : Nat} {passages : List Passage} (hb : b.Orderly none)
      (hscoped : b.Scoped) (hsub : ∀ s ∈ b.statements, s ∈ program.statements)
      (hpassages : b.passages target spellings? { depth := depth } [] = .ok passages) :
      ∀ line ∈ passages.flatMap Passage.lines, P line :=
    (laid_of_passages_nil hb hscoped hpassages).forall_mem hfiller hown (by simp) fun s hs =>
      hstatements s (hsub s hs)
  obtain ⟨passages, hpassages, rfl⟩ := map_eq_ok_iff.mp h
  cases target with
  | javaScript | ruby => exact part horderly hscoped (fun _ hs => hs) hpassages
  | python =>
      rw [document, importingPassages] at hpassages
      obtain ⟨body, hbody, hpassages⟩ := bind_eq_ok_iff.mp hpassages
      split at hpassages
      · cases hpassages
        rw [List.flatMap_cons, List.forall_mem_append]
        exact ⟨hframe, part horderly hscoped (fun _ hs => hs) hbody⟩
      · cases hpassages
        exact part horderly hscoped (fun _ hs => hs) hbody
  | vba =>
      have hsplit := horderly.splitsOrderly
      have hscopedParts := hscoped.splitFunctions false
      rw [document, procedurePassages] at hpassages
      obtain ⟨functions, hfunctions, hpassages⟩ := bind_eq_ok_iff.mp hpassages
      obtain ⟨main, hmain, ⟨⟩⟩ := bind_eq_ok_iff.mp hpassages
      simp only [List.flatMap_append, List.forall_mem_append, List.flatMap_singleton,
        Passage.ofLines, List.forall_mem_singleton]
      refine ⟨⟨⟨⟨?_, ?_⟩, hframe _ (by simp [Target.frameLines])⟩, ?_⟩,
        hframe _ (by simp [Target.frameLines])⟩
      · exact part (hsplit.functions none) hscopedParts.1
          (fun s hs => mem_statements_splitFunctions (.inl hs)) hfunctions
      · split
        · simp
        · simpa using hframe { text := "" } (.head _)
      · exact part hsplit.main hscopedParts.2
          (fun s hs => mem_statements_splitFunctions (.inr hs)) hmain

end BlockCode
