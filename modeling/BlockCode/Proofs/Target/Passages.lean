/- # Passages and the statements they are made from

Every statement gives a passage, in which the expressions of its slots are read and printed, with
one exception: the condition of a loop with its test at the end is printed where the loop closes.
What a counting loop needs at its end is printed there too. Neighbours agree in a program of the
right form, so the next statement is the one that closes the loop, and it finds the header on top of
the open lines.

Besides its expressions a slot can hold the name of a function, which is printed as it was typed.
Nothing else in the slots of a statement is left out of its passage, and nothing comes into a
passage but from the slots of the statement or of the header of its block.
-/

import BlockCode.Proofs.Target.Counting
import BlockCode.Proofs.Target.Sources

namespace BlockCode

/-- Each item of a list that is gone through has a result. -/
theorem exists_result_of_mem_mapM {ε α β : Type} {f : α → Except ε β} {items : List α}
    {results : List β} (h : items.mapM f = .ok results) :
    ∀ a ∈ items, ∃ b ∈ results, f a = .ok b := by
  induction items generalizing results with
  | nil => exact List.forall_mem_nil _
  | cons a items ih =>
      rw [List.mapM_cons] at h
      obtain ⟨b, hb, h⟩ := bind_eq_ok_iff.mp h
      obtain ⟨rest, hrest, ⟨⟩⟩ := bind_eq_ok_iff.mp h
      rw [List.forall_mem_cons]
      refine ⟨⟨b, .head _, hb⟩, fun other hother => ?_⟩
      obtain ⟨result, hresult, heq⟩ := ih hrest other hother
      exact ⟨result, .tail _ hresult, heq⟩

namespace Statement

/-- The action is made from what stands in the slots of the statement: its own action, or for a loop
with its test at the end the action of the line that closes the loop. -/
inductive ReadBy (s : Statement) (target : Target) (action : Action) : Prop
  | own (hkind : s.kind ≠ .doWhile) (loop? : Option StatementKind) (header? : Option Statement)
      (h : s.action target loop? header? = .ok action)
  | closing (hkind : s.kind = .doWhile) (closing : Statement) (loop? : Option StatementKind)
      (hclosing : closing.kind = .endDoWhile)
      (h : closing.action target loop? (some s) = .ok action)

variable {s : Statement} {target : Target} {spellings? : Option Spellings} {action : Action}
  {e : Expr}

theorem exists_action_of_passage {place : Place} {openers : List Statement} {passage : Passage}
    (h : s.passage target spellings? place openers = .ok passage) :
    ∃ action own, s.action target place.loop? (s.opener? openers) = .ok action ∧
      target.lines spellings? action = .ok own ∧
      passage = ⟨action.exprs, own.map (.indent place.depth)⟩ := by
  obtain ⟨action, haction, h⟩ := bind_eq_ok_iff.mp h
  obtain ⟨own, hown, ⟨⟩⟩ := bind_eq_ok_iff.mp h
  exact ⟨action, own, haction, mapError_eq_ok_iff.mp hown, rfl⟩

theorem exists_readSlot_of_mem_readableExprs (h : e ∈ s.readableExprs) :
    ∃ slot ∈ s.expressionSlots, ∃ exprs, s.readSlot slot = .ok exprs ∧ e ∈ exprs := by
  rw [readableExprs, List.mem_flatMap] at h
  obtain ⟨slot, hslot, he⟩ := h
  cases hread : s.readSlot slot with
  | error err =>
      rw [hread] at he
      cases he
  | ok exprs =>
      rw [hread] at he
      exact ⟨slot, hslot, exprs, hread, he⟩

/-- A line that closes a block has no expressions of its own. -/
theorem closesBlock_of_mem_expressionSlots {slot : Nat} (hslot : slot ∈ s.expressionSlots) :
    s.kind.closesBlock = false := by
  rw [expressionSlots] at hslot
  generalize s.kind = kind at hslot ⊢
  cases kind with
  | endIf | endWhile | endDoWhile | endFor | endFunction | endRegion => cases hslot
  | _ => rfl

theorem ReadBy.kind_eq (h : s.ReadBy target action) :
    action.kind = s.kind ∨ action.kind = .endDoWhile := by
  cases h with
  | own _ _ _ h => exact .inl (kind_of_action h)
  | closing _ closing _ hclosing h => exact .inr ((kind_of_action h).trans hclosing)

/-- Only a counting loop counts, with what its slots are read as. -/
theorem ReadBy.of_count {direction : Direction} {counter first last step : Expr}
    (h : s.ReadBy target (.count direction counter first last step)) :
    s.kind.isCountingLoop = true ∧ s.direction = direction ∧ s.exprIn 1 = .ok first ∧
      s.exprIn 2 = .ok last ∧ s.exprIn 3 = .ok step := by
  have hkind : s.kind.isCountingLoop = true := by
    rcases h.kind_eq with hkind | hkind
    · rw [← hkind]
      cases direction <;> rfl
    · cases direction <;> cases hkind
  refine ⟨hkind, ?_⟩
  cases h with
  | own _ _ _ h =>
      obtain ⟨counter', first', last', step', -, hfirst, hlast, hstep, heq⟩ :=
        exists_count_of_action hkind h
      cases heq
      exact ⟨rfl, hfirst, hlast, hstep⟩
  | closing hloop =>
      rw [hloop] at hkind
      cases hkind

/-- An action is made from all that stands in the slots of the statement, but for the name of a
function. -/
theorem ReadBy.mem_exprs (hs : s.Checked) (h : s.ReadBy target action)
    (hmem : e ∈ s.readableExprs) :
    e ∈ action.exprs ∨
      (s.kind = .defineFunction ∨ s.kind = .callFunction) ∧ prepare (s.slot 0) = .ok e := by
  obtain ⟨slot, hslot, exprs, hread, he⟩ := exists_readSlot_of_mem_readableExprs hmem
  have single {e' : Expr} (hlist : s.kind.isListSlot slot = false)
      (he' : s.exprIn slot = .ok e') : e = e' := by
    rw [readSlot_of_exprIn hlist he'] at hread
    rw [← Except.ok.inj hread] at he
    exact List.mem_singleton.mp he
  have list {exprs' : List Expr} (hlist : s.kind.isListSlot slot = true)
      (hexprs : s.exprsIn slot = .ok exprs') : e ∈ exprs' := by
    rw [readSlot_of_exprsIn hlist hexprs] at hread
    rwa [Except.ok.inj hread]
  have bound {n : Nat} (hn : s.kind.arity? = some n) (hregion : s.kind ≠ .region) : slot < n := by
    rw [expressionSlots, hs.arity n hn, StatementKind.expressionSlots_eq hn hregion,
      List.mem_filter, List.mem_range] at hslot
    exact hslot.1
  cases h with
  | closing hkind closing loop? hclosing h =>
      rw [Statement.action, hclosing] at h
      obtain ⟨_, ⟨⟩, h⟩ := bind_eq_ok_iff.mp h
      obtain ⟨condition, hcondition, ⟨⟩⟩ := bind_eq_ok_iff.mp h
      have hslot0 := bound (n := 1) (by rw [hkind]; rfl) (by rw [hkind]; decide)
      obtain rfl : slot = 0 := by omega
      rw [single (by rw [hkind]; rfl) hcondition]
      exact .inl (.head _)
  | own hkind loop? header? h =>
      obtain ⟨id, kind, slots, isConstant, collapsed⟩ := s
      cases kind with
      | doWhile => exact absurd rfl hkind
      | assign | bulkAssign | increment | decrement =>
          obtain ⟨left, hleft, h⟩ := bind_eq_ok_iff.mp h
          obtain ⟨right, hright, ⟨⟩⟩ := bind_eq_ok_iff.mp h
          have hslot2 := bound rfl (by simp)
          obtain rfl | rfl : slot = 0 ∨ slot = 1 := by omega
          · rw [single rfl hleft]
            exact .inl (.head _)
          · rw [single rfl hright]
            exact .inl (.tail _ (.head _))
      | initializeArray =>
          obtain ⟨items, hitems, h⟩ := bind_eq_ok_iff.mp h
          obtain ⟨left, hleft, ⟨⟩⟩ := bind_eq_ok_iff.mp h
          have hslot2 := bound rfl (by simp)
          obtain rfl | rfl : slot = 0 ∨ slot = 1 := by omega
          · rw [single rfl hleft]
            exact .inl (.head _)
          · exact .inl (.tail _ (list rfl hitems))
      | output =>
          obtain ⟨items, hitems, ⟨⟩⟩ := bind_eq_ok_iff.mp h
          obtain ⟨item, hitem, hread'⟩ := exists_result_of_mem_mapM hitems slot hslot
          rw [single (Bool.and_false _) hread']
          exact .inl hitem
      | ifThen | elseIf | whileLoop =>
          obtain ⟨condition, hcondition, ⟨⟩⟩ := bind_eq_ok_iff.mp h
          have hslot1 := bound rfl (by simp)
          obtain rfl : slot = 0 := by omega
          rw [single rfl hcondition]
          exact .inl (.head _)
      | otherwise | endIf | endWhile | endDoWhile | endFor | endFunction | breakLoop | endRegion =>
          exact absurd (bound rfl (by simp)) (Nat.not_lt_zero slot)
      | forIncrement | forDecrement =>
          obtain ⟨counter, hcounter, h⟩ := bind_eq_ok_iff.mp h
          obtain ⟨first, hfirst, h⟩ := bind_eq_ok_iff.mp h
          obtain ⟨last, hlast, h⟩ := bind_eq_ok_iff.mp h
          obtain ⟨step, hstep, ⟨⟩⟩ := bind_eq_ok_iff.mp h
          have hslot4 := bound rfl (by simp)
          obtain rfl | rfl | rfl | rfl : slot = 0 ∨ slot = 1 ∨ slot = 2 ∨ slot = 3 := by omega
          · rw [single rfl hcounter]
            exact .inl (by simp [Action.exprs])
          · rw [single rfl hfirst]
            exact .inl (by simp [Action.exprs])
          · rw [single rfl hlast]
            exact .inl (by simp [Action.exprs])
          · rw [single rfl hstep]
            exact .inl (by simp [Action.exprs])
      | defineFunction | callFunction =>
          obtain ⟨items, hitems, ⟨⟩⟩ := bind_eq_ok_iff.mp h
          have hslot2 := bound rfl (by simp)
          obtain rfl | rfl : slot = 0 ∨ slot = 1 := by omega
          · obtain ⟨e', he', hsingle⟩ := map_eq_ok_iff.mp hread
            rw [← hsingle] at he
            rw [List.mem_singleton.mp he]
            exact .inr ⟨by simp, he'⟩
          · exact .inl (list rfl hitems)
      | region => cases hslot

end Statement

/-! ## Passages of a block -/

/-- Among the passages is what the target makes of the action. -/
def Action.RenderedIn (action : Action) (target : Target) (spellings? : Option Spellings)
    (passages : List Passage) : Prop :=
  ∃ own depth, target.lines spellings? action = .ok own ∧
    ⟨action.exprs, own.map (.indent depth)⟩ ∈ passages

theorem Action.RenderedIn.mono {action : Action} {target : Target} {spellings? : Option Spellings}
    {passages passages' : List Passage} (h : action.RenderedIn target spellings? passages)
    (hsub : ∀ passage ∈ passages, passage ∈ passages') :
    action.RenderedIn target spellings? passages' := by
  obtain ⟨own, depth, hown, hmem⟩ := h
  exact ⟨own, depth, hown, hsub _ hmem⟩

/-- So its lines are lines of the passages, further in. -/
theorem Action.RenderedIn.exists_lines {action : Action} {target : Target}
    {spellings? : Option Spellings} {passages : List Passage}
    (h : action.RenderedIn target spellings? passages) :
    ∃ own depth, target.lines spellings? action = .ok own ∧
      ∀ line ∈ own, line.indent depth ∈ passages.flatMap Passage.lines := by
  obtain ⟨own, depth, hown, hmem⟩ := h
  exact ⟨own, depth, hown, fun line hline =>
    List.mem_flatMap.mpr ⟨_, hmem, List.mem_map_of_mem hline⟩⟩

/-- Among the passages is the one of the statement, and if the statement opens a block that only one
kind of line closes, also the one of that line, which is read together with the statement. -/
structure Statement.RenderedIn (s : Statement) (target : Target) (spellings? : Option Spellings)
    (passages : List Passage) : Prop where
  own : ∃ loop? header? action, s.action target loop? header? = .ok action ∧
    action.RenderedIn target spellings? passages
  closing : s.kind.opensBlock = true → ∀ closing, s.kind.successors? = some [closing] →
    ∃ last loop? action, Statement.kind last = closing ∧
      last.action target loop? (some s) = .ok action ∧
        action.RenderedIn target spellings? passages

theorem Statement.RenderedIn.mono {s : Statement} {target : Target} {spellings? : Option Spellings}
    {passages passages' : List Passage} (h : s.RenderedIn target spellings? passages)
    (hsub : ∀ passage ∈ passages, passage ∈ passages') :
    s.RenderedIn target spellings? passages' := by
  constructor
  · obtain ⟨loop?, header?, action, haction, hrendered⟩ := h.own
    exact ⟨loop?, header?, action, haction, hrendered.mono hsub⟩
  · intro hopens closing hclosing
    obtain ⟨last, loop?, action, hlast, haction, hrendered⟩ := h.closing hopens closing hclosing
    exact ⟨last, loop?, action, hlast, haction, hrendered.mono hsub⟩

/-- So there is the passage that is made from the slots of the statement. -/
theorem Statement.RenderedIn.exists_readBy {s : Statement} {target : Target}
    {spellings? : Option Spellings} {passages : List Passage}
    (h : s.RenderedIn target spellings? passages) :
    ∃ action, s.ReadBy target action ∧ action.RenderedIn target spellings? passages := by
  by_cases hloop : s.kind = .doWhile
  · obtain ⟨last, loop?, action, hlast, haction, hrendered⟩ :=
      h.closing (by rw [hloop]; rfl) .endDoWhile (by rw [hloop]; rfl)
    exact ⟨action, .closing hloop last loop? hlast haction, hrendered⟩
  · obtain ⟨loop?, header?, action, haction, hrendered⟩ := h.own
    exact ⟨action, .own hloop loop? header? haction, hrendered⟩

/-- The ends of a counting loop are printed from the slots of its header. -/
theorem Statement.RenderedIn.exists_loop {s : Statement} {target : Target}
    {spellings? : Option Spellings} {passages : List Passage}
    (h : s.RenderedIn target spellings? passages) (hkind : s.kind.isCountingLoop = true) :
    ∃ counter first last step, s.exprIn 0 = .ok counter ∧ s.exprIn 1 = .ok first ∧
      s.exprIn 2 = .ok last ∧ s.exprIn 3 = .ok step ∧
      (Action.count s.direction counter first last step).RenderedIn target spellings? passages ∧
      (Action.endCount (target.footerFor s.direction counter first last step)).RenderedIn target
        spellings? passages := by
  obtain ⟨loop?, header?, action, haction, hheader⟩ := h.own
  obtain ⟨counter, first, end', step, hcounter, hfirst, hend, hstep, rfl⟩ :=
    Statement.exists_count_of_action hkind haction
  have hloop := Statement.kind_of_isCountingLoop hkind
  obtain ⟨last, loop?', action', hlast, haction', hfooter⟩ := h.closing
    (by rcases hloop with hloop | hloop <;> rw [hloop] <;> rfl) .endFor
    (by rcases hloop with hloop | hloop <;> rw [hloop] <;> rfl)
  have hopener : last.opener? [s] = some s := by
    rw [Statement.opener?, hlast]
    rfl
  rw [← hopener, Statement.action_endCount hcounter hfirst hend hstep hlast] at haction'
  cases haction'
  exact ⟨counter, first, end', step, hcounter, hfirst, hend, hstep, hheader, hfooter⟩

/-- What fills an empty body is about nothing. -/
theorem exprs_of_mem_filler {target : Target} {kind : StatementKind} {depth : Nat}
    {body : List Passage} {passage : Passage} (h : passage ∈ target.filler kind depth body) :
    passage.exprs = [] := by
  rw [Target.filler] at h
  split at h
  · cases h
  · obtain ⟨line, -, rfl⟩ := Option.map_eq_some_iff.mp (Option.mem_toList.mp h)
    rfl

namespace Block

variable {target : Target} {spellings? : Option Spellings}

/-- The passages of a statement, of what is nested under it and of what follows it. -/
theorem exists_of_passages_cons {head : Statement} {body next : Block} {place : Place}
    {openers : List Statement} {passages : List Passage}
    (h : (cons head body next).passages target spellings? place openers = .ok passages) :
    ∃ own nested rest, head.passage target spellings? place openers = .ok own ∧
      (head.kind.isScoping = true → ∃ inner,
        body.passages target spellings? (place.inside head.kind) [] = .ok inner ∧
          nested = inner ++ target.filler head.kind (place.inside head.kind).depth inner) ∧
      (head.kind.isScoping = false → nested = []) ∧
      next.passages target spellings? place (head.openersBehind openers) = .ok rest ∧
      passages = own :: (nested ++ rest) := by
  rw [Block.passages] at h
  dsimp only at h
  obtain ⟨own, hown, h⟩ := bind_eq_ok_iff.mp h
  split at h
  · next hscoping =>
    obtain ⟨inner, hinner, h⟩ := bind_eq_ok_iff.mp h
    obtain ⟨nested, hnested, h⟩ := bind_eq_ok_iff.mp h
    cases hnested
    obtain ⟨rest, hrest, ⟨⟩⟩ := bind_eq_ok_iff.mp h
    exact ⟨own, _, rest, hown, fun _ => ⟨inner, hinner, rfl⟩, by simp [hscoping], hrest, rfl⟩
  · next hscoping =>
    obtain ⟨nested, hnested, h⟩ := bind_eq_ok_iff.mp h
    cases hnested
    obtain ⟨rest, hrest, ⟨⟩⟩ := bind_eq_ok_iff.mp h
    exact ⟨own, [], rest, hown, fun h => absurd h hscoping, fun _ => rfl, hrest, rfl⟩

theorem closesBlock_of_successors? {kind closing : StatementKind}
    (hclosing : kind.successors? = some [closing]) : closing.closesBlock = true := by
  cases kind <;> cases hclosing <;> rfl

/-- A block that only one kind of line closes is closed by the next statement. -/
theorem exists_closing_of_leadsTo {kind closing : StatementKind} {next : Block}
    (hclosing : kind.successors? = some [closing])
    (h : kind.LeadsTo (next.first?.map Statement.kind)) :
    ∃ last inner behind, next = .cons last inner behind ∧ last.kind = closing := by
  obtain ⟨other, hfirst, hmem⟩ := h.exists_mem hclosing
  cases next with
  | nil => cases hfirst
  | cons last inner behind =>
      refine ⟨last, inner, behind, rfl, ?_⟩
      exact (Option.some.inj hfirst).trans (List.mem_singleton.mp hmem)

theorem renderedIn_of_passage {s : Statement} {place : Place} {openers : List Statement}
    {passage : Passage} (h : s.passage target spellings? place openers = .ok passage)
    {passages : List Passage} (hmem : passage ∈ passages) :
    ∃ action, s.action target place.loop? (s.opener? openers) = .ok action ∧
      action.RenderedIn target spellings? passages := by
  obtain ⟨action, own, haction, hown, rfl⟩ := Statement.exists_action_of_passage h
  exact ⟨action, haction, own, place.depth, hown, hmem⟩

/-- The passages of a block hold what all its statements are about. -/
theorem renderedIn_of_mem {b : Block} {previous : Option StatementKind} (hb : b.Orderly previous)
    (hscoped : b.Scoped) {place : Place} {openers : List Statement} {passages : List Passage}
    (h : b.passages target spellings? place openers = .ok passages) :
    ∀ s ∈ b.statements, s.RenderedIn target spellings? passages := by
  induction b generalizing previous place openers passages with
  | nil => exact List.forall_mem_nil _
  | cons head body next ihbody ihnext =>
      obtain ⟨hleads, -, hbody, hnext⟩ := hb
      obtain ⟨hscope, hscopedBody, hscopedNext⟩ := hscoped
      obtain ⟨own, nested, rest, hown, hnested, hnone, hrest, rfl⟩ := exists_of_passages_cons h
      rw [statements, List.forall_mem_cons, List.forall_mem_append]
      refine ⟨⟨?_, fun hopens closing hclosing => ?_⟩, fun s hs => ?_, fun s hs => ?_⟩
      · obtain ⟨action, haction, hrendered⟩ := renderedIn_of_passage hown (.head _)
        exact ⟨_, _, action, haction, hrendered⟩
      · obtain ⟨last, inner, behind, rfl, hlast⟩ := exists_closing_of_leadsTo hclosing hleads
        obtain ⟨passage, nested', rest', hpassage, -, -, -, rfl⟩ := exists_of_passages_cons hrest
        obtain ⟨action, haction, hrendered⟩ := renderedIn_of_passage hpassage
          (.tail own (List.mem_append_right nested (.head _)))
        have hopener : last.opener? (head.openersBehind openers) = some head := by
          have hcloses : last.kind.closesBlock = true := by
            rw [hlast]
            exact closesBlock_of_successors? hclosing
          rw [Statement.opener?, if_pos hcloses, Statement.openersBehind, if_pos hopens]
          rfl
        rw [hopener] at haction
        exact ⟨last, _, action, hlast, haction, hrendered⟩
      · have hne : body ≠ .nil := by
          rintro rfl
          cases hs
        obtain ⟨inner, hinner, rfl⟩ := hnested (hscope hne)
        refine (ihbody hbody hscopedBody hinner s hs).mono fun passage hpassage => ?_
        exact .tail _ (List.mem_append_left _ (List.mem_append_left _ hpassage))
      · refine (ihnext hnext hscopedNext hrest s hs).mono fun passage hpassage => ?_
        exact .tail _ (List.mem_append_right _ hpassage)

/-- What the passages of a block are about stands in the slots of its statements, or of a line that
is open in front of it. -/
theorem exists_source_of_mem_passages {b : Block} {previous : Option StatementKind}
    (hb : b.Orderly previous) (hchecked : ∀ s ∈ b.statements, s.Checked) {place : Place}
    {openers : List Statement} (hawaits : Awaits previous openers)
    (hopeners : ∀ opener ∈ openers, opener.Checked) {passages : List Passage}
    (h : b.passages target spellings? place openers = .ok passages) :
    ∀ passage ∈ passages, ∀ e ∈ passage.exprs,
      ∃ s, (s ∈ openers ∨ s ∈ b.statements) ∧ e ∈ s.readableExprs := by
  induction b generalizing previous place openers passages with
  | nil =>
      cases h
      exact List.forall_mem_nil _
  | cons head body next ihbody ihnext =>
      obtain ⟨-, hfollows, hbody, hnext⟩ := hb
      rw [statements, List.forall_mem_cons, List.forall_mem_append] at hchecked
      obtain ⟨hhead, hcheckedBody, hcheckedNext⟩ := hchecked
      obtain ⟨own, nested, rest, hown, hnested, hnone, hrest, rfl⟩ := exists_of_passages_cons h
      have hinBody {s : Statement} (hs : s ∈ body.statements) :
          s ∈ (cons head body next).statements :=
        .tail _ (List.mem_append_left _ hs)
      have hinNext {s : Statement} (hs : s ∈ next.statements) :
          s ∈ (cons head body next).statements :=
        .tail _ (List.mem_append_right _ hs)
      rw [List.forall_mem_cons, List.forall_mem_append]
      refine ⟨fun e he => ?_, ?_, fun passage hpassage e he => ?_⟩
      · obtain ⟨action, lines, haction, -, rfl⟩ := Statement.exists_action_of_passage hown
        have hfrom := Statement.action_from hhead
          (fun header hheader => hopeners header (Statement.mem_of_opener? hheader))
          (fun _ => hawaits.follows_opener hfollows ‹_›) haction
        obtain ⟨s, hs, hsource⟩ := hfrom.exprs e he
        rcases List.mem_cons.mp hs with rfl | hheader
        · exact ⟨s, .inr (.head _), hsource⟩
        · have hopener := Statement.mem_of_opener? (Option.mem_toList.mp hheader)
          exact ⟨s, .inl hopener, hsource⟩
      · cases hscoping : head.kind.isScoping with
        | false =>
            rw [hnone hscoping]
            exact List.forall_mem_nil _
        | true =>
            obtain ⟨inner, hinner, rfl⟩ := hnested hscoping
            rw [List.forall_mem_append]
            refine ⟨fun passage hpassage e he => ?_, fun passage hpassage e he => ?_⟩
            · obtain ⟨s, hs, hsource⟩ := ihbody hbody hcheckedBody (.none [])
                (List.forall_mem_nil _) hinner passage hpassage e he
              exact ⟨s, .inr (hinBody (hs.resolve_left List.not_mem_nil)), hsource⟩
            · rw [exprs_of_mem_filler hpassage] at he
              cases he
      · have hbehind : ∀ opener ∈ head.openersBehind openers, opener.Checked := by
          intro opener hopener
          rcases Statement.mem_openersBehind hopener with rfl | hopener
          · exact hhead
          · exact hopeners opener hopener
        obtain ⟨s, hs, hsource⟩ := ihnext hnext hcheckedNext (hawaits.behind hfollows) hbehind hrest
          passage hpassage e he
        rcases hs with hs | hs
        · rcases Statement.mem_openersBehind hs with rfl | hs
          · exact ⟨s, .inr (.head _), hsource⟩
          · exact ⟨s, .inl hs, hsource⟩
        · exact ⟨s, .inr (hinNext hs), hsource⟩

/-- Taking the functions out leaves no statement out. -/
theorem mem_splitFunctions_of_mem_statements {b : Block} {s : Statement} (h : s ∈ b.statements)
    (inFunction : Bool) : s ∈ (b.splitFunctions inFunction).1.statements ∨
      s ∈ (b.splitFunctions inFunction).2.statements := by
  induction b generalizing inFunction with
  | nil => exact .inl h
  | cons head body next _ ih =>
      rw [statements, List.mem_cons, List.mem_append] at h
      rw [splitFunctions]
      split
      · simp only [statements, List.mem_cons, List.mem_append]
        rcases h with h | h | h
        · exact .inl (.inl h)
        · exact .inl (.inr (.inl h))
        · exact (ih h _).imp (fun h => .inr (.inr h)) id
      · simp only [statements, List.mem_cons, List.mem_append]
        rcases h with h | h | h
        · exact .inr (.inl h)
        · exact .inr (.inr (.inl h))
        · exact (ih h _).imp id fun h => .inr (.inr h)

/-- The passages of a program hold what all its statements are about. -/
theorem renderedIn_of_document {program : Block} {options : RenderOptions}
    (horderly : program.Orderly none) (hscoped : program.Scoped) {passages : List Passage}
    (h : program.document target options spellings? = .ok passages) :
    ∀ s ∈ program.statements, s.RenderedIn target spellings? passages := by
  intro s hs
  cases target with
  | javaScript | ruby => exact renderedIn_of_mem horderly hscoped h s hs
  | python =>
      obtain ⟨body, hbody, h⟩ := bind_eq_ok_iff.mp h
      refine (renderedIn_of_mem horderly hscoped hbody s hs).mono fun passage hpassage => ?_
      split at h
      · cases h
        exact .tail _ hpassage
      · cases h
        exact hpassage
  | vba =>
      have hsplit := horderly.splitsOrderly
      have hscopedParts := hscoped.splitFunctions false
      rw [document, procedurePassages] at h
      obtain ⟨functions, hfunctions, h⟩ := bind_eq_ok_iff.mp h
      obtain ⟨main, hmain, ⟨⟩⟩ := bind_eq_ok_iff.mp h
      rcases mem_splitFunctions_of_mem_statements hs false with hs | hs
      · refine (renderedIn_of_mem (hsplit.functions none) hscopedParts.1 hfunctions s hs).mono
          fun passage hpassage => ?_
        simp [hpassage]
      · refine (renderedIn_of_mem hsplit.main hscopedParts.2 hmain s hs).mono
          fun passage hpassage => ?_
        simp [hpassage]

end Block

end BlockCode
