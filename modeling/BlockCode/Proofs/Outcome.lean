/- # Outcomes

Computations that may fail are followed step by step: a sequence of steps succeeds when every
step does, and if no step fails but by overflow, neither does the sequence. The cause of an
overflow is kept as a condition, so that it can be said in the end which programs overflow.
-/

import BlockCode.Target.Error

namespace BlockCode

/-- Two steps succeed when the first does and the second does on its result. -/
theorem bind_eq_ok_iff {ε α β : Type} {r : Except ε α} {f : α → Except ε β} {b : β} :
    r >>= f = .ok b ↔ ∃ a, r = .ok a ∧ f a = .ok b := by
  cases r with
  | error e => simp [bind, Except.bind]
  | ok a => simp [bind, Except.bind]

/-- A result that is checked before it is handed on succeeds when it passes the check. -/
theorem bind_check_eq_ok_iff {ε α : Type} {r : Except ε α} {check : α → Except ε Unit} {a : α} :
    (do let a ← r; check a; return a) = .ok a ↔ r = .ok a ∧ check a = .ok () := by
  rw [bind_eq_ok_iff]
  constructor
  · rintro ⟨a', hr, hchecked⟩
    obtain ⟨⟨⟩, hcheck, heq⟩ := bind_eq_ok_iff.mp hchecked
    cases heq
    exact ⟨hr, hcheck⟩
  · rintro ⟨hr, hcheck⟩
    exact ⟨a, hr, bind_eq_ok_iff.mpr ⟨(), hcheck, rfl⟩⟩

/-- Two steps fail when the first does, or the second does on its result. -/
theorem bind_eq_error_iff {ε α β : Type} {r : Except ε α} {f : α → Except ε β} {e : ε} :
    r >>= f = .error e ↔ r = .error e ∨ ∃ a, r = .ok a ∧ f a = .error e := by
  cases r with
  | error e' => simp [bind, Except.bind]
  | ok a => simp [bind, Except.bind]

/-- A last step that cannot fail leaves the failure to the step before it. -/
theorem eq_error_of_bind_pure {ε α β : Type} {r : Except ε α} {f : α → β} {e : ε}
    (h : (r >>= fun a => pure (f a)) = .error e) : r = .error e := by
  rcases bind_eq_error_iff.mp h with h | ⟨_, _, h⟩
  · exact h
  · cases h

theorem map_eq_error {ε α β : Type} {r : Except ε α} {f : α → β} {e : ε}
    (h : r.map f = .error e) : r = .error e := by
  cases r with
  | error e' => exact congrArg Except.error (Except.error.inj h)
  | ok a => cases h

theorem map_eq_ok_iff {ε α β : Type} {r : Except ε α} {f : α → β} {b : β} :
    r.map f = .ok b ↔ ∃ a, r = .ok a ∧ f a = b := by
  cases r with
  | error e => simp [Except.map]
  | ok a => simp [Except.map]

theorem mapError_eq_ok_iff {ε ε' α : Type} {r : Except ε α} {f : ε → ε'} {a : α} :
    r.mapError f = .ok a ↔ r = .ok a := by
  cases r with
  | error e =>
      refine iff_of_false ?_ ?_ <;>
        · intro h
          cases h
  | ok a' =>
      constructor <;>
        · intro h
          exact congrArg Except.ok (Except.ok.inj h)

/-- A check of every item of a list succeeds if each item passes it, and only then. -/
theorem forM_eq_ok_iff {ε α : Type} {f : α → Except ε Unit} {items : List α} :
    items.forM f = .ok () ↔ ∀ a ∈ items, f a = .ok () := by
  induction items with
  | nil => exact iff_of_true rfl nofun
  | cons a items ih =>
      rw [List.forall_mem_cons, ← ih]
      constructor
      · intro h
        obtain ⟨⟨⟩, ha, hrest⟩ := bind_eq_ok_iff.mp h
        exact ⟨ha, hrest⟩
      · rintro ⟨ha, hrest⟩
        exact bind_eq_ok_iff.mpr ⟨(), ha, hrest⟩

/-- Going through a list succeeds when every step does. -/
theorem exists_mapM_eq_ok {ε α β : Type} {f : α → Except ε β} {items : List α}
    (h : ∀ a ∈ items, ∃ b, f a = .ok b) : ∃ results, items.mapM f = .ok results := by
  induction items with
  | nil => exact ⟨[], rfl⟩
  | cons a items ih =>
      rw [List.forall_mem_cons] at h
      obtain ⟨b, hb⟩ := h.1
      obtain ⟨results, hresults⟩ := ih h.2
      refine ⟨b :: results, ?_⟩
      rw [List.mapM_cons, hb, hresults]
      rfl

/-- Each result of going through a list is that of one of its items. -/
theorem exists_of_mem_mapM {ε α β : Type} {f : α → Except ε β} {items : List α} {results : List β}
    (h : items.mapM f = .ok results) : ∀ b ∈ results, ∃ a ∈ items, f a = .ok b := by
  induction items generalizing results with
  | nil =>
      cases h
      simp
  | cons a items ih =>
      rw [List.mapM_cons] at h
      obtain ⟨b, hb, h⟩ := bind_eq_ok_iff.mp h
      obtain ⟨rest, hrest, ⟨⟩⟩ := bind_eq_ok_iff.mp h
      rw [List.forall_mem_cons]
      refine ⟨⟨a, .head _, hb⟩, fun other hother => ?_⟩
      obtain ⟨item, hitem, heq⟩ := ih hrest other hother
      exact ⟨item, .tail _ hitem, heq⟩

/-- The computation gives a result, unless it overflows, which it does only for the cause. -/
def OverflowsOnlyIf {α : Type} (r : Except RenderError α) (cause : Prop) : Prop :=
  (∃ a, r = .ok a) ∨ (∃ operation, r = .error (.overflow operation)) ∧ cause

namespace OverflowsOnlyIf

variable {α β : Type} {cause cause' : Prop}

theorem ok (a : α) : OverflowsOnlyIf (.ok a) cause :=
  .inl ⟨a, rfl⟩

theorem mono {r : Except RenderError α} (h : OverflowsOnlyIf r cause)
    (hcause : cause → cause') : OverflowsOnlyIf r cause' := by
  rcases h with h | ⟨h, hc⟩
  · exact .inl h
  · exact .inr ⟨h, hcause hc⟩

theorem bind {r : Except RenderError α} {f : α → Except RenderError β}
    (h : OverflowsOnlyIf r cause) (hf : ∀ a, r = .ok a → OverflowsOnlyIf (f a) cause) :
    OverflowsOnlyIf (r >>= f) cause := by
  rcases h with ⟨a, rfl⟩ | ⟨⟨operation, rfl⟩, hc⟩
  · exact hf a rfl
  · exact .inr ⟨⟨operation, rfl⟩, hc⟩

theorem map {r : Except RenderError α} {f : α → β} (h : OverflowsOnlyIf r cause) :
    OverflowsOnlyIf (r.map f) cause := by
  rcases h with ⟨a, rfl⟩ | ⟨⟨operation, rfl⟩, hc⟩
  · exact .inl ⟨f a, rfl⟩
  · exact .inr ⟨⟨operation, rfl⟩, hc⟩

/-- An arithmetic step that fails fails by overflow. -/
theorem mapError {r : Except Overflow α} (h : ∀ operation, r = .error operation → cause) :
    OverflowsOnlyIf (r.mapError .overflow) cause := by
  cases r with
  | error operation => exact .inr ⟨⟨operation, rfl⟩, h operation rfl⟩
  | ok a => exact .inl ⟨a, rfl⟩

end OverflowsOnlyIf

end BlockCode
