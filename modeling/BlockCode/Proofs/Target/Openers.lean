/- # Open lines

Rendering keeps the open lines of a list on a stack and reads a closing line with the one on top.
In a program of the right form the line on top always belongs to the closing line. Neighbours
agree on every level, and this stays so when the functions of a program are moved to its front.
-/

import BlockCode.Proofs.Check.Structure
import BlockCode.Target.Passage

namespace BlockCode

/-- No list says of a kind that leaves a function open that it goes on with a block. -/
theorem StatementKind.successors?_eq_none_of_leadsTo_define {kind : StatementKind}
    (h : kind.LeadsTo (some .defineFunction)) : kind.successors? = none := by
  revert h
  cases kind <;> decide

theorem StatementKind.eq_endFunction_of_leadsTo {next : Option StatementKind}
    (h : StatementKind.defineFunction.LeadsTo next) : next = some .endFunction := by
  obtain ⟨other, rfl, hmem⟩ := h.exists_mem (show _ = some [.endFunction] from rfl)
  rw [List.mem_singleton.mp hmem]

namespace Block

/-- Neighbours agree in the block and in every block nested under it; `previous` stands in front
of the block. -/
def Orderly (previous : Option StatementKind) : Block → Prop
  | .nil => True
  | .cons head body next =>
    head.kind.LeadsTo (next.first?.map Statement.kind) ∧ head.kind.Follows previous ∧
      body.Orderly none ∧ next.Orderly (some head.kind)

theorem orderly_of_sound {b : Block} {ancestors : List Statement} {previous : Option Statement}
    (h : ∀ spot ∈ b.spotsUnder ancestors previous, spot.Sound) :
    b.Orderly (previous.map Statement.kind) := by
  induction b generalizing ancestors previous with
  | nil => trivial
  | cons head body next ihbody ihnext =>
      rw [spotsUnder, List.forall_mem_cons, List.forall_mem_append] at h
      obtain ⟨hhead, hbody, hnext⟩ := h
      exact ⟨hhead.leads, hhead.follows, ihbody hbody, ihnext hnext⟩

theorem WellFormed.orderly {program : Block} (h : program.WellFormed) : program.Orderly none :=
  orderly_of_sound (wellFormed_iff.mp h).2

/-- A block that comes where no block is open may come anywhere. -/
theorem Orderly.of_settled {b : Block} {previous : Option StatementKind} (h : b.Orderly previous)
    (hprevious : Settled previous) (other : Option StatementKind) : b.Orderly other := by
  cases b with
  | nil => trivial
  | cons head body next =>
      obtain ⟨hleads, hfollows, hbody, hnext⟩ := h
      have hnone := hprevious.predecessors?_eq_none hfollows
      exact ⟨hleads, StatementKind.follows_of_none _ hnone, hbody, hnext⟩

section Split

variable {head : Statement} {body next : Block}

theorem splitFunctions_define (h : head.kind = .defineFunction) :
    (cons head body next).splitFunctions false =
      (cons head body (next.splitFunctions true).1, (next.splitFunctions true).2) := by
  rw [splitFunctions, if_pos (.inl h), decide_eq_true h]

theorem splitFunctions_end (h : head.kind = .endFunction) :
    (cons head body next).splitFunctions true =
      (cons head body (next.splitFunctions false).1, (next.splitFunctions false).2) := by
  rw [splitFunctions, if_pos (.inr ⟨h, rfl⟩), h]
  rfl

theorem splitFunctions_other (h : head.kind ≠ .defineFunction) :
    (cons head body next).splitFunctions false =
      ((next.splitFunctions false).1, cons head body (next.splitFunctions false).2) := by
  have hcondition : ¬ (head.kind = .defineFunction ∨ head.kind = .endFunction ∧ false = true) := by
    rintro (hdefine | ⟨_, hfalse⟩)
    · exact h hdefine
    · cases hfalse
  rw [splitFunctions, if_neg hcondition]

/-- Taking the functions out moves statements but brings none in. -/
theorem mem_statements_splitFunctions {b : Block} {inFunction : Bool} {s : Statement}
    (h : s ∈ (b.splitFunctions inFunction).1.statements ∨
      s ∈ (b.splitFunctions inFunction).2.statements) : s ∈ b.statements := by
  induction b generalizing inFunction with
  | nil => exact h.elim id id
  | cons head body next _ ih =>
      rw [statements, List.mem_cons, List.mem_append]
      rw [splitFunctions] at h
      split at h
      · simp only [statements, List.mem_cons, List.mem_append] at h
        rcases h with (h | h | h) | h
        · exact .inl h
        · exact .inr (.inl h)
        · exact .inr (.inr (ih (.inl h)))
        · exact .inr (.inr (ih (.inr h)))
      · simp only [statements, List.mem_cons, List.mem_append] at h
        rcases h with h | h | h | h
        · exact .inr (.inr (ih (.inl h)))
        · exact .inl h
        · exact .inr (.inl h)
        · exact .inr (.inr (ih (.inr h)))

end Split

/-- What taking the functions out keeps of the neighbours that agree. -/
structure SplitsOrderly (previous : Option StatementKind) (b : Block) : Prop where
  functions : ∀ other, (b.splitFunctions false).1.Orderly other
  main : (b.splitFunctions false).2.Orderly previous
  /-- What may stand in front of the block may stand in front of what is left of it. -/
  leads : ∀ kind : StatementKind, kind.LeadsTo (b.first?.map Statement.kind) →
    kind.LeadsTo ((b.splitFunctions false).2.first?.map Statement.kind)

/-- A function and the line that ends it are taken out together, and no block is open there. -/
theorem SplitsOrderly.define {previous : Option StatementKind} {head last : Statement}
    {body inner rest : Block} (hhead : head.kind = .defineFunction)
    (hlast : last.kind = .endFunction) (hbody : body.Orderly none) (hinner : inner.Orderly none)
    (hrest : rest.SplitsOrderly (some .endFunction)) :
    (cons head body (cons last inner rest)).SplitsOrderly previous := by
  have hsplit : (cons head body (cons last inner rest)).splitFunctions false =
      (cons head body (cons last inner (rest.splitFunctions false).1),
        (rest.splitFunctions false).2) := by
    rw [splitFunctions_define hhead, splitFunctions_end hlast]
  refine ⟨fun other => ?_, ?_, fun kind hkind => ?_⟩
  · rw [hsplit]
    refine ⟨?_, ?_, hbody, ?_, ?_, hinner, hrest.functions _⟩
    · rw [hhead, first?, Option.map_some, hlast]
      rfl
    · rw [hhead]
      exact StatementKind.follows_of_none other rfl
    · rw [hlast]
      exact StatementKind.leadsTo_of_none _ rfl
    · rw [hhead, hlast]
      rfl
  · rw [hsplit]
    exact hrest.main.of_settled (settled_some rfl) previous
  · rw [first?, Option.map_some, hhead] at hkind
    exact StatementKind.leadsTo_of_none _
      (StatementKind.successors?_eq_none_of_leadsTo_define hkind)

/-- Taking the functions out leaves neighbours that agree, in the functions and in the rest. -/
theorem Orderly.splitsOrderly {b : Block} {previous : Option StatementKind}
    (h : b.Orderly previous) : b.SplitsOrderly previous := by
  obtain ⟨n, hn⟩ : ∃ n, b.width ≤ n := ⟨_, Nat.le_refl _⟩
  induction n generalizing b previous with
  | zero =>
      cases b with
      | nil => exact ⟨fun _ => trivial, trivial, fun _ => id⟩
      | cons head body next =>
          rw [width] at hn
          omega
  | succ n ih =>
      cases b with
      | nil => exact ⟨fun _ => trivial, trivial, fun _ => id⟩
      | cons head body next =>
          obtain ⟨hleads, hfollows, hbody, hnext⟩ := h
          rw [width] at hn
          by_cases hdefine : head.kind = .defineFunction
          · rw [hdefine] at hleads
            have hend := StatementKind.eq_endFunction_of_leadsTo hleads
            cases next with
            | nil => cases hend
            | cons last inner rest =>
                obtain ⟨_, _, hinner, hrest⟩ := hnext
                have hlast : last.kind = .endFunction := Option.some.inj hend
                rw [hlast] at hrest
                rw [width] at hn
                exact .define hdefine hlast hbody hinner (ih hrest (by omega))
          · have hrest := ih hnext (by omega)
            refine ⟨fun other => ?_, ?_, fun kind hkind => ?_⟩
            · rw [splitFunctions_other hdefine]
              exact hrest.functions other
            · rw [splitFunctions_other hdefine]
              exact ⟨hrest.leads _ hleads, hfollows, hbody, hrest.main⟩
            · rw [splitFunctions_other hdefine]
              exact hkind

end Block

/-- The kind of the line that opened the block of a line. -/
def StatementKind.opening : StatementKind → StatementKind
  | .elseIf | .otherwise => .ifThen
  | kind => kind

namespace StatementKind

/-- The kinds that leave a block open either open it or go on with it. -/
theorem opens_or_continues {kind : StatementKind} (h : kind.successors? ≠ none) :
    kind.opensBlock = true ∨ kind.continuesBlock = true := by
  revert h
  cases kind <;> decide

theorem opening_of_opensBlock {kind : StatementKind} (h : kind.opensBlock = true) :
    kind.opening = kind := by
  revert h
  cases kind <;> decide

/-- A line that goes on with a block neither opens nor closes one, and belongs to a block that
was opened as its own would be. -/
theorem opening_of_continuesBlock {kind : StatementKind} (h : kind.continuesBlock = true) :
    kind.opensBlock = false ∧ kind.closesBlock = false ∧
      ∃ kinds, kind.predecessors? = some kinds ∧
        ∀ other ∈ kinds, other.opening = kind.opening := by
  revert h
  cases kind <;> simp [continuesBlock, opensBlock, closesBlock, predecessors?, opening]

/-- The line that opened a block could stand directly in front of the line that closes it. -/
theorem follows_opening {closing kind : StatementKind} {kinds : List StatementKind}
    (hcloses : closing.closesBlock = true) (hkinds : closing.predecessors? = some kinds)
    (hmem : kind ∈ kinds) : closing.Follows (some kind.opening) := by
  revert hmem hcloses
  cases closing <;> cases hkinds <;> cases kind <;> decide

end StatementKind

/-- Where the statement in front leaves a block open, the line that opened it is on top. -/
def Awaits (previous : Option StatementKind) (openers : List Statement) : Prop :=
  ∀ kind ∈ previous, kind.successors? ≠ none →
    openers.head?.map Statement.kind = some kind.opening

namespace Awaits

theorem none (openers : List Statement) : Awaits .none openers := by
  simp [Awaits]

variable {previous : Option StatementKind} {openers : List Statement} {s : Statement}
  (h : Awaits previous openers) (hfollows : s.kind.Follows previous)

include h hfollows

/-- A line that belongs to a block comes where the line that opened the block is on top. -/
theorem exists_opening {kinds : List StatementKind} (hkinds : s.kind.predecessors? = some kinds) :
    ∃ kind ∈ kinds, openers.head?.map Statement.kind = some kind.opening := by
  obtain ⟨kind, hkind, hmem⟩ := hfollows.exists_mem hkinds
  exact ⟨kind, hmem, h kind hkind (StatementKind.successors?_of_mem_predecessors? hkinds hmem)⟩

/-- The line on top could stand directly in front of a line that closes its block. -/
theorem follows_opener (hcloses : s.kind.closesBlock = true) :
    s.kind.Follows ((s.opener? openers).map Statement.kind) := by
  obtain ⟨kinds, hkinds⟩ := StatementKind.predecessors?_of_closesBlock hcloses
  obtain ⟨kind, hmem, htop⟩ := h.exists_opening hfollows hkinds
  rw [Statement.opener?, if_pos hcloses, htop]
  exact StatementKind.follows_opening hcloses hkinds hmem

/-- Behind the statement the open lines fit again. -/
theorem behind : Awaits (some s.kind) (s.openersBehind openers) := by
  intro kind hkind hopen
  cases hkind
  rcases StatementKind.opens_or_continues hopen with hopens | hcontinues
  · rw [Statement.openersBehind, if_pos hopens, StatementKind.opening_of_opensBlock hopens]
    rfl
  · obtain ⟨hopens, hcloses, kinds, hkinds, hopening⟩ :=
      StatementKind.opening_of_continuesBlock hcontinues
    obtain ⟨other, hmem, htop⟩ := h.exists_opening hfollows hkinds
    rw [Statement.openersBehind, hopens, hcloses, if_neg Bool.false_ne_true,
      if_neg Bool.false_ne_true, htop, hopening other hmem]

end Awaits

/-- The open lines behind a statement are the statement and open lines in front of it. -/
theorem Statement.mem_openersBehind {s opener : Statement} {openers : List Statement}
    (h : opener ∈ s.openersBehind openers) : opener = s ∨ opener ∈ openers := by
  rw [openersBehind] at h
  have htail : opener ∈ (if s.kind.closesBlock then openers.tail else openers) →
      opener ∈ openers := by
    intro hmem
    split at hmem
    · exact List.mem_of_mem_tail hmem
    · exact hmem
  split at h
  · rcases List.mem_cons.mp h with rfl | h
    · exact .inl rfl
    · exact .inr (htail h)
  · exact .inr (htail h)

theorem Statement.mem_of_opener? {s opener : Statement} {openers : List Statement}
    (h : s.opener? openers = some opener) : opener ∈ openers := by
  rw [opener?] at h
  split at h
  · exact List.mem_of_mem_head? h
  · cases h

end BlockCode
