/- # Complete blocks among neighbours

The statements of one list belong together in blocks: a header, its continuations and its closing
line stand side by side. Here the lists made of complete blocks and single statements are
described as a whole, by a grammar, and it is shown that looking at neighbours only is enough to
tell them: each line that leaves a block open is followed by one that belongs to the block, and
each line that belongs to a block comes directly after one that left it open.
-/

import BlockCode.Check.Finding

namespace BlockCode

/-- Whether the statement neither opens, goes on with nor closes a block. -/
def StatementKind.isPlain (kind : StatementKind) : Bool :=
  !kind.opensBlock && !kind.continuesBlock && !kind.closesBlock

/-- The kinds of the lines of one complete block, in order. -/
inductive Chain : List StatementKind → Prop
  | choice (n : Nat) : Chain (.ifThen :: (List.replicate n .elseIf ++ [.endIf]))
  | choiceOtherwise (n : Nat) :
      Chain (.ifThen :: (List.replicate n .elseIf ++ [.otherwise, .endIf]))
  | whileLoop : Chain [.whileLoop, .endWhile]
  | doWhile : Chain [.doWhile, .endDoWhile]
  | forIncrement : Chain [.forIncrement, .endFor]
  | forDecrement : Chain [.forDecrement, .endFor]
  | defineFunction : Chain [.defineFunction, .endFunction]
  | region : Chain [.region, .endRegion]

/-- The kinds of the statements of one list: single statements and complete blocks. -/
inductive Siblings : List StatementKind → Prop
  | nil : Siblings []
  | plain {kind : StatementKind} {kinds : List StatementKind} (hkind : kind.isPlain = true)
      (hrest : Siblings kinds) : Siblings (kind :: kinds)
  | chain {block kinds : List StatementKind} (hblock : Chain block) (hrest : Siblings kinds) :
      Siblings (block ++ kinds)

namespace StatementKind

/-- A statement that leaves its block open is followed by one of the block. -/
def LeadsTo (kind : StatementKind) (next : Option StatementKind) : Prop :=
  kind.successors?.all (fun kinds => next.any kinds.contains) = true

/-- A statement that goes on with a block or closes it comes after one of the block. -/
def Follows (kind : StatementKind) (previous : Option StatementKind) : Prop :=
  kind.predecessors?.all (fun kinds => previous.any kinds.contains) = true

instance (kind : StatementKind) (next : Option StatementKind) : Decidable (kind.LeadsTo next) :=
  inferInstanceAs (Decidable (_ = true))

instance (kind : StatementKind) (previous : Option StatementKind) :
    Decidable (kind.Follows previous) :=
  inferInstanceAs (Decidable (_ = true))

theorem LeadsTo.exists_mem {kind : StatementKind} {next : Option StatementKind}
    {kinds : List StatementKind} (h : kind.LeadsTo next) (hkinds : kind.successors? = some kinds) :
    ∃ other, next = some other ∧ other ∈ kinds := by
  rw [LeadsTo, hkinds, Option.all_some] at h
  cases next with
  | none => cases h
  | some other => exact ⟨other, rfl, by simpa using h⟩

theorem Follows.exists_mem {kind : StatementKind} {previous : Option StatementKind}
    {kinds : List StatementKind} (h : kind.Follows previous)
    (hkinds : kind.predecessors? = some kinds) :
    ∃ other, previous = some other ∧ other ∈ kinds := by
  rw [Follows, hkinds, Option.all_some] at h
  cases previous with
  | none => cases h
  | some other => exact ⟨other, rfl, by simpa using h⟩

theorem successors?_eq_none_of_isPlain {kind : StatementKind} (h : kind.isPlain = true) :
    kind.successors? = none ∧ kind.predecessors? = none := by
  revert h
  cases kind <;> decide

theorem isScoping_of_closesBlock {kind : StatementKind} (h : kind.closesBlock = true) :
    kind.isScoping = false := by
  revert h
  cases kind <;> decide

theorem opensBlock_of_closesBlock {kind : StatementKind} (h : kind.closesBlock = true) :
    kind.opensBlock = false ∧ kind.successors? = none := by
  revert h
  cases kind <;> decide

theorem predecessors?_of_closesBlock {kind : StatementKind} (h : kind.closesBlock = true) :
    ∃ kinds, kind.predecessors? = some kinds := by
  revert h
  cases kind <;> simp [closesBlock, predecessors?]

/-- Only what leaves a block open can be what a statement has to come after. -/
theorem successors?_of_mem_predecessors? {kind previous : StatementKind}
    {kinds : List StatementKind} (h : kind.predecessors? = some kinds) (hmem : previous ∈ kinds) :
    previous.successors? ≠ none := by
  revert hmem
  cases kind <;> cases h <;> cases previous <;> decide

/-- What has to follow a statement has to come after one. -/
theorem predecessors?_of_mem_successors? {kind next : StatementKind} {kinds : List StatementKind}
    (h : kind.successors? = some kinds) (hmem : next ∈ kinds) : next.predecessors? ≠ none := by
  revert hmem
  cases kind <;> cases h <;> cases next <;> decide

end StatementKind

/-- Every statement of the list agrees with its neighbours; `previous` is the one in front of
the list. -/
def Linked : Option StatementKind → List StatementKind → Prop
  | _, [] => True
  | previous, kind :: rest =>
    kind.LeadsTo rest.head? ∧ kind.Follows previous ∧ Linked (some kind) rest

/-- No block is open behind the statement. -/
def Settled (previous : Option StatementKind) : Prop :=
  ∀ kind ∈ previous, kind.successors? = none

theorem settled_none : Settled none := by
  simp [Settled]

theorem settled_some {kind : StatementKind} (h : kind.successors? = none) :
    Settled (some kind) := by
  simpa [Settled] using h

/-- Where no block is open, no statement can go on with one. -/
theorem Settled.predecessors?_eq_none {previous : Option StatementKind} {kind : StatementKind}
    (h : Settled previous) (hfollows : kind.Follows previous) : kind.predecessors? = none := by
  cases hkinds : kind.predecessors? with
  | none => rfl
  | some kinds =>
      obtain ⟨other, hother, hmem⟩ := hfollows.exists_mem hkinds
      exact absurd (h other hother) (StatementKind.successors?_of_mem_predecessors? hkinds hmem)

/-- What follows a choice that was opened is the rest of the choice and then a list that starts
with no block open. -/
theorem Linked.choice_rest {kind : StatementKind} {rest : List StatementKind}
    (hkind : kind = .ifThen ∨ kind = .elseIf) (hnext : kind.LeadsTo rest.head?)
    (h : Linked (some kind) rest) :
    ∃ (n : Nat) (tail : List StatementKind),
      (rest = List.replicate n StatementKind.elseIf ++ ([StatementKind.endIf] ++ tail) ∨
        rest = List.replicate n StatementKind.elseIf ++
          ([StatementKind.otherwise, StatementKind.endIf] ++ tail)) ∧
      Linked (some .endIf) tail := by
  have hsuccessors : kind.successors? = some [.elseIf, .otherwise, .endIf] := by
    rcases hkind with rfl | rfl <;> rfl
  induction rest generalizing kind with
  | nil =>
      obtain ⟨other, hother, _⟩ := hnext.exists_mem hsuccessors
      cases hother
  | cons next rest ih =>
      obtain ⟨other, hother, hmem⟩ := hnext.exists_mem hsuccessors
      cases hother
      obtain ⟨hleads, _, hrest⟩ := h
      simp only [List.mem_cons, List.not_mem_nil, or_false] at hmem
      rcases hmem with rfl | rfl | rfl
      · obtain ⟨n, tail, hsplit, htail⟩ := ih (.inr rfl) hleads hrest rfl
        refine ⟨n + 1, tail, ?_, htail⟩
        rcases hsplit with rfl | rfl
        · exact .inl rfl
        · exact .inr rfl
      · obtain ⟨other, hother, hmem⟩ := hleads.exists_mem (show _ = some [.endIf] from rfl)
        obtain rfl := List.mem_singleton.mp hmem
        cases rest with
        | nil => cases hother
        | cons last tail =>
            cases hother
            exact ⟨0, tail, .inr rfl, hrest.2.2⟩
      · exact ⟨0, rest, .inl rfl, hrest⟩

/-- What follows a header with a single closing line starts with that line. -/
theorem Linked.close_rest {kind closing : StatementKind} {rest : List StatementKind}
    (hkind : kind.successors? = some [closing]) (hnext : kind.LeadsTo rest.head?)
    (h : Linked (some kind) rest) :
    ∃ tail, rest = closing :: tail ∧ Linked (some closing) tail := by
  obtain ⟨other, hother, hmem⟩ := hnext.exists_mem hkind
  obtain rfl := List.mem_singleton.mp hmem
  cases rest with
  | nil => cases hother
  | cons last tail =>
      cases hother
      exact ⟨tail, rfl, h.2.2⟩

/-- A list whose neighbours agree consists of single statements and complete blocks. -/
theorem Linked.siblings {previous : Option StatementKind} {kinds : List StatementKind}
    (hprevious : Settled previous) (h : Linked previous kinds) : Siblings kinds := by
  obtain ⟨n, hn⟩ : ∃ n, kinds.length ≤ n := ⟨_, Nat.le_refl _⟩
  induction n generalizing previous kinds with
  | zero =>
      obtain rfl := List.eq_nil_of_length_eq_zero (Nat.le_zero.mp hn)
      exact .nil
  | succ n ih =>
      cases kinds with
      | nil => exact .nil
      | cons kind rest =>
          obtain ⟨hleads, hfollows, hrest⟩ := h
          have hnone := hprevious.predecessors?_eq_none hfollows
          have hlength : rest.length ≤ n := Nat.le_of_succ_le_succ hn
          have close {closing : StatementKind} (hchain : Chain [kind, closing])
              (hkind : kind.successors? = some [closing]) (hclosing : closing.successors? = none) :
              Siblings (kind :: rest) := by
            obtain ⟨tail, rfl, htail⟩ := Linked.close_rest hkind hleads hrest
            exact .chain hchain (ih (settled_some hclosing) htail
              (Nat.le_of_succ_le hlength))
          have single (hplain : kind.isPlain = true) : Siblings (kind :: rest) :=
            .plain hplain (ih (settled_some
              (StatementKind.successors?_eq_none_of_isPlain hplain).1) hrest hlength)
          cases kind with
          | ifThen =>
              obtain ⟨m, tail, hsplit, htail⟩ := Linked.choice_rest (.inl rfl) hleads hrest
              have htail' : Siblings tail := by
                apply ih (settled_some rfl) htail
                rcases hsplit with rfl | rfl <;> simp at hlength <;> omega
              rcases hsplit with rfl | rfl
              · have hchain := Siblings.chain (.choice m) htail'
                simpa using hchain
              · have hchain := Siblings.chain (.choiceOtherwise m) htail'
                simpa using hchain
          | whileLoop => exact close .whileLoop rfl rfl
          | doWhile => exact close .doWhile rfl rfl
          | forIncrement => exact close .forIncrement rfl rfl
          | forDecrement => exact close .forDecrement rfl rfl
          | defineFunction => exact close .defineFunction rfl rfl
          | region => exact close .region rfl rfl
          | elseIf | otherwise | endIf | endWhile | endDoWhile | endFor | endFunction
            | endRegion => cases hnone
          | _ => exact single rfl

theorem StatementKind.leadsTo_of_none {kind : StatementKind} (next : Option StatementKind)
    (h : kind.successors? = none) : kind.LeadsTo next := by
  rw [LeadsTo, h]
  rfl

theorem StatementKind.follows_of_none {kind : StatementKind} (previous : Option StatementKind)
    (h : kind.predecessors? = none) : kind.Follows previous := by
  rw [Follows, h]
  rfl

/-- Alternatives agree with their neighbours when what follows the last of them does. -/
theorem Linked.alternatives {kind : StatementKind} {tail : List StatementKind}
    (hkind : kind = .ifThen ∨ kind = .elseIf)
    (htail : ∀ last, last = .ifThen ∨ last = .elseIf →
      last.LeadsTo tail.head? ∧ Linked (some last) tail) (n : Nat) :
    kind.LeadsTo (List.replicate n StatementKind.elseIf ++ tail).head? ∧
      Linked (some kind) (List.replicate n .elseIf ++ tail) := by
  induction n generalizing kind with
  | zero => exact htail kind hkind
  | succ n ih =>
      obtain ⟨hleads, hlinked⟩ := ih (.inr rfl)
      refine ⟨?_, hleads, ?_, hlinked⟩
      · rcases hkind with rfl | rfl <;> rfl
      · rcases hkind with rfl | rfl <;> rfl

/-- In a list of single statements and complete blocks all neighbours agree, whatever stands in
front of it. -/
theorem Siblings.linked {kinds : List StatementKind} (h : Siblings kinds)
    (previous : Option StatementKind) : Linked previous kinds := by
  induction h generalizing previous with
  | nil => trivial
  | plain hkind _ ih =>
      obtain ⟨hsuccessors, hpredecessors⟩ := StatementKind.successors?_eq_none_of_isPlain hkind
      exact ⟨StatementKind.leadsTo_of_none _ hsuccessors,
        StatementKind.follows_of_none _ hpredecessors, ih _⟩
  | @chain block kinds hblock _ ih =>
      have close {kind closing : StatementKind} (hkind : kind.predecessors? = none)
          (hleads : kind.LeadsTo (some closing)) (hfollows : closing.Follows (some kind))
          (hclosing : closing.successors? = none) :
          Linked previous ([kind, closing] ++ kinds) :=
        ⟨hleads, StatementKind.follows_of_none _ hkind, StatementKind.leadsTo_of_none _ hclosing,
          hfollows, ih _⟩
      have choice {tail : List StatementKind}
          (htail : ∀ last, last = .ifThen ∨ last = .elseIf →
            last.LeadsTo tail.head? ∧ Linked (some last) tail) (n : Nat) :
          Linked previous (.ifThen :: (List.replicate n .elseIf ++ tail)) := by
        obtain ⟨hleads, hlinked⟩ := Linked.alternatives (.inl rfl) htail n
        exact ⟨hleads, StatementKind.follows_of_none _ rfl, hlinked⟩
      have hend : (.endIf : StatementKind).LeadsTo kinds.head? :=
        StatementKind.leadsTo_of_none _ rfl
      cases hblock with
      | choice n =>
          rw [List.cons_append, List.append_assoc]
          refine choice (fun last hlast => ?_) n
          rcases hlast with rfl | rfl
          · exact ⟨rfl, hend, rfl, ih _⟩
          · exact ⟨rfl, hend, rfl, ih _⟩
      | choiceOtherwise n =>
          rw [List.cons_append, List.append_assoc]
          refine choice (fun last hlast => ?_) n
          rcases hlast with rfl | rfl
          · exact ⟨rfl, rfl, rfl, hend, rfl, ih _⟩
          · exact ⟨rfl, rfl, rfl, hend, rfl, ih _⟩
      | whileLoop => exact close rfl rfl rfl rfl
      | doWhile => exact close rfl rfl rfl rfl
      | forIncrement => exact close rfl rfl rfl rfl
      | forDecrement => exact close rfl rfl rfl rfl
      | defineFunction => exact close rfl rfl rfl rfl
      | region => exact close rfl rfl rfl rfl

/-- Looking at neighbours decides whether a list consists of single statements and complete
blocks. -/
theorem linked_iff_siblings {kinds : List StatementKind} : Linked none kinds ↔ Siblings kinds :=
  ⟨fun h => h.siblings settled_none, fun h => h.linked none⟩

end BlockCode
