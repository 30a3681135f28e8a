/- # Rendering and the shape of a program

Identifiers come into a rendering only where it fails: they say in an error which statement is
meant. A rendering of a shape is therefore the rendering of any program of that shape, with the
identifiers taken out of the error if there is one. This is followed step by step from the slots
of a statement to the code of a whole program.
-/

import BlockCode.Proofs.Check.Shape
import BlockCode.Proofs.Outcome
import BlockCode.Target.Render

namespace BlockCode

/-- The error without the identifiers of statements. -/
def RenderError.anonymous : RenderError → RenderError
  | .invalidProgram findings => .invalidProgram (findings.map Finding.anonymous)
  | .expression _ kind error => .expression "" kind error
  | .nothingToClose _ kind => .nothingToClose "" kind
  | .unspelledNames names => .unspelledNames names
  | .spelling error => .spelling error
  | .overflow operation => .overflow operation

section Results

variable {ε ε' ε'' α β γ : Type}

theorem mapError_bind (r : Except ε α) (f : α → Except ε β) (g : ε → ε') :
    (r >>= f).mapError g = r.mapError g >>= fun a => (f a).mapError g := by
  cases r <;> rfl

theorem mapError_pure (a : α) (g : ε → ε') :
    (pure a : Except ε α).mapError g = pure a := rfl

theorem mapError_map (r : Except ε α) (f : α → β) (g : ε → ε') :
    (r.map f).mapError g = (r.mapError g).map f := by
  cases r <;> rfl

theorem mapError_mapError (r : Except ε α) (f : ε → ε') (g : ε' → ε'') :
    (r.mapError f).mapError g = r.mapError (g ∘ f) := by
  cases r <;> rfl

theorem bind_map (r : Except ε α) (f : α → β) (g : β → Except ε γ) :
    r.map f >>= g = r >>= fun a => g (f a) := by
  cases r <;> rfl

theorem mapError_mapM (f : α → Except ε β) (g : ε → ε') (items : List α) :
    (items.mapM f).mapError g = items.mapM fun a => (f a).mapError g := by
  induction items with
  | nil => rfl
  | cons a items ih =>
      simp only [List.mapM_cons, mapError_bind, mapError_pure, ih]

/-- Results that agree but for their errors are both successes or both failures. -/
theorem eq_ok_or_eq_error_of_mapError_eq {r r' : Except ε α} {g : ε → ε'}
    (h : r.mapError g = r'.mapError g) :
    (∃ a, r = .ok a ∧ r' = .ok a) ∨
      ∃ e e', r = .error e ∧ r' = .error e' ∧ g e = g e' := by
  cases r with
  | ok a => exact .inl ⟨a, rfl, (mapError_eq_ok_iff.mp h.symm)⟩
  | error e =>
      cases r' with
      | ok a => cases h
      | error e' => exact .inr ⟨e, e', rfl, rfl, Except.error.inj h⟩

end Results

namespace Statement

variable (s : Statement)

theorem exprIn_shape (slot : Nat) :
    s.shape.exprIn slot = (s.exprIn slot).mapError .anonymous := by
  rw [exprIn, exprIn, mapError_mapError, slot_shape]
  rfl

theorem exprsIn_shape (slot : Nat) :
    s.shape.exprsIn slot = (s.exprsIn slot).mapError .anonymous := by
  rw [exprsIn, exprsIn, mapError_mapError, slot_shape]
  rfl

theorem openedBy_shape (opener? : Option Statement) :
    s.shape.openedBy (opener?.map shape) =
      ((s.openedBy opener?).mapError .anonymous).map shape := by
  cases opener? <;> rfl

theorem anyFraction_shape (slots : List Nat) :
    s.shape.anyFraction slots = (s.anyFraction slots).mapError .anonymous := by
  induction slots with
  | nil => rfl
  | cons slot slots ih =>
      rw [anyFraction, anyFraction, mapError_bind, exprIn_shape]
      congr 1
      funext e
      split
      · rfl
      · exact ih

@[simp]
theorem direction_shape : s.shape.direction = s.direction := rfl

@[simp]
theorem plainSlot_shape (slot : Nat) : s.shape.plainSlot slot = s.plainSlot slot := rfl

theorem loopFooter_shape (target : Target) (opener? : Option Statement) :
    s.shape.loopFooter target (opener?.map shape) =
      (s.loopFooter target opener?).mapError .anonymous := by
  cases target with
  | javaScript | ruby => rfl
  | vba =>
      simp only [loopFooter, openedBy_shape, bind_map, exprIn_shape, mapError_bind, mapError_pure]
  | python =>
      simp only [loopFooter, openedBy_shape, bind_map, anyFraction_shape, mapError_bind]
      congr 1
      funext opener
      congr 1
      funext fractional
      split
      · simp only [exprIn_shape, direction_shape, mapError_bind, mapError_pure]
      · rfl

/-- What a statement does, it does whatever its identifier. -/
theorem action_shape (target : Target) (loop? : Option StatementKind)
    (opener? : Option Statement) :
    s.shape.action target loop? (opener?.map shape) =
      (s.action target loop? opener?).mapError .anonymous := by
  have houtput : (List.range s.slots.length).mapM s.shape.exprIn =
      ((List.range s.slots.length).mapM s.exprIn).mapError .anonymous := by
    rw [mapError_mapM]
    exact congrArg (fun f => (List.range s.slots.length).mapM f) (funext s.exprIn_shape)
  unfold action
  rw [kind_shape]
  cases s.kind <;> simp only [exprIn_shape, exprsIn_shape, openedBy_shape, loopFooter_shape,
    isConstant_shape, slots_shape, houtput, direction_shape, plainSlot_shape, bind_map,
    mapError_bind, mapError_pure]

theorem opener?_shape (openers : List Statement) :
    s.shape.opener? (openers.map shape) = (s.opener? openers).map shape := by
  rw [opener?, opener?, kind_shape, List.head?_map]
  split <;> rfl

theorem openersBehind_shape (openers : List Statement) :
    s.shape.openersBehind (openers.map shape) = (s.openersBehind openers).map shape := by
  rw [openersBehind, openersBehind, kind_shape]
  split <;> split <;> simp

theorem passage_shape (target : Target) (spellings? : Option Spellings) (place : Place)
    (openers : List Statement) :
    s.shape.passage target spellings? place (openers.map shape) =
      (s.passage target spellings? place openers).mapError .anonymous := by
  have hlines (action : Action) :
      ((target.lines spellings? action).mapError RenderError.overflow).mapError
          RenderError.anonymous =
        (target.lines spellings? action).mapError RenderError.overflow :=
    mapError_mapError _ _ _
  simp only [passage, opener?_shape, action_shape, mapError_bind, hlines, mapError_pure]

end Statement

namespace Block

variable (target : Target) (spellings? : Option Spellings)

/-- The passages of a shape are the passages of any program of that shape. -/
theorem passages_shape (b : Block) (place : Place) (openers : List Statement) :
    b.shape.passages target spellings? place (openers.map Statement.shape) =
      (b.passages target spellings? place openers).mapError .anonymous := by
  induction b generalizing place openers with
  | nil => rfl
  | cons head body next ihbody ihnext =>
      have hcons : (cons head body next).shape = cons head.shape body.shape next.shape := rfl
      have hbody := ihbody (place.inside head.kind) []
      have hnext := ihnext place (head.openersBehind openers)
      rw [List.map_nil] at hbody
      rw [hcons, passages, passages]
      simp only [mapError_bind, Statement.passage_shape, Statement.kind_shape,
        Statement.openersBehind_shape]
      congr 1
      funext own
      split
      · simp only [mapError_bind, hbody, hnext, mapError_pure]
      · simp only [mapError_bind, hnext, mapError_pure]

/-- Functions are found by the kinds of statements. -/
theorem splitFunctions_shape (b : Block) (inFunction : Bool) :
    b.shape.splitFunctions inFunction =
      ((b.splitFunctions inFunction).1.shape, (b.splitFunctions inFunction).2.shape) := by
  induction b generalizing inFunction with
  | nil => rfl
  | cons head body next ihbody ihnext =>
      have hcons : (cons head body next).shape = cons head.shape body.shape next.shape := rfl
      rw [hcons, splitFunctions, splitFunctions, Statement.kind_shape]
      split
      · rw [ihnext]
        rfl
      · rw [ihnext]
        rfl

theorem document_shape (b : Block) (options : RenderOptions) :
    b.shape.document target options spellings? =
      (b.document target options spellings?).mapError .anonymous := by
  have hpassages (b : Block) (target : Target) (place : Place) :=
    passages_shape target spellings? b place []
  simp only [List.map_nil] at hpassages
  cases target with
  | javaScript => exact hpassages b .javaScript {}
  | ruby => exact hpassages b .ruby {}
  | python =>
      simp only [document, importingPassages, mapError_bind, hpassages]
      congr 1
      funext body
      split <;> rfl
  | vba =>
      simp only [document, procedurePassages, splitFunctions_shape, mapError_bind, hpassages,
        isEmpty_shape, mapError_pure]

theorem generate_shape (b : Block) (options : RenderOptions) :
    b.shape.generate target options spellings? =
      (b.generate target options spellings?).mapError .anonymous := by
  simp only [generate, codeLines, mapError_map, document_shape]

theorem nonAsciiIdentifiers_shape (b : Block) :
    b.shape.nonAsciiIdentifiers = b.nonAsciiIdentifiers := by
  rw [nonAsciiIdentifiers, nonAsciiIdentifiers, identifiers, identifiers, statements_shape,
    List.flatMap_map]
  rfl

theorem renderChecked_shape (b : Block) (options : RenderOptions) :
    b.shape.renderChecked target options spellings? =
      (b.renderChecked target options spellings?).mapError .anonymous := by
  have hspelled : b.shape.checkSpelled target spellings? =
      (b.checkSpelled target spellings?).mapError .anonymous := by
    have hunspelled : b.shape.unspelled spellings? = b.unspelled spellings? := by
      rw [unspelled.eq_def, unspelled.eq_def, nonAsciiIdentifiers_shape]
    rw [checkSpelled, checkSpelled, hunspelled]
    split
    · split <;> rfl
    · rfl
  rw [renderChecked, renderChecked, mapError_bind, hspelled]
  simp only [generate_shape]

/-- A program is rendered as another one of its shape, but for the identifiers in an error, as
long as the identifiers of both are distinct. -/
theorem mapError_renderWith_eq {p q : Block} (hshape : p.shape = q.shape) (hp : p.ids.Nodup)
    (hq : q.ids.Nodup) (options : RenderOptions) :
    (p.renderWith target options spellings?).mapError RenderError.anonymous =
      (q.renderWith target options spellings?).mapError RenderError.anonymous := by
  have hvalid : p.checkValid.mapError RenderError.anonymous =
      q.checkValid.mapError RenderError.anonymous := by
    have hfindings := map_anonymous_validate_eq hshape hp hq
    rw [checkValid, checkValid]
    cases hpf : p.validate with
    | nil => rw [validate_eq_nil_of_shape_eq hshape.symm hq hpf]
    | cons finding findings =>
        cases hqf : q.validate with
        | nil => rw [validate_eq_nil_of_shape_eq hshape hp hqf] at hpf; cases hpf
        | cons finding' findings' =>
            rw [hpf, hqf] at hfindings
            exact congrArg (fun found => Except.error (RenderError.invalidProgram found)) hfindings
  have hchecked : (p.renderChecked target options spellings?).mapError RenderError.anonymous =
      (q.renderChecked target options spellings?).mapError RenderError.anonymous := by
    rw [← renderChecked_shape, ← renderChecked_shape, hshape]
  rw [renderWith, renderWith, mapError_bind, mapError_bind, hvalid]
  simp only [hchecked]

/-- If one of them is rendered, the other one is, as long as its identifiers are distinct. -/
theorem render_eq_ok_of_shape_eq {p q : Block} (hshape : p.shape = q.shape) (hp : p.ids.Nodup)
    {options : RenderOptions} {code : String} (hrender : q.render target options = .ok code) :
    p.render target options = .ok code := by
  have hvalid : q.validate = [] := by
    obtain ⟨_, hvalid, _⟩ := bind_eq_ok_iff.mp hrender
    rw [checkValid] at hvalid
    split at hvalid
    · assumption
    · cases hvalid
  have hrenders :=
    mapError_renderWith_eq target none hshape hp (wellFormed_of_validate hvalid).distinct options
  rw [render] at hrender ⊢
  rw [hrender] at hrenders
  exact mapError_eq_ok_iff.mp hrenders

/-- Identifiers and editor marks never matter, as long as identifiers are distinct. Two programs of
one shape have the same findings on the same lines, and they are rendered to the same code or
refused for the same reason, where only the identifiers of statements may differ. -/
theorem validate_renderWith_of_sameShape {p q : Block} (hshape : p.sameShape q = true)
    (hp : p.ids.Nodup) (hq : q.ids.Nodup) (options : RenderOptions) :
    p.validate.map Finding.anonymous = q.validate.map Finding.anonymous ∧
      ((∃ code, p.renderWith target options spellings? = .ok code ∧
          q.renderWith target options spellings? = .ok code) ∨
        ∃ e e', p.renderWith target options spellings? = .error e ∧
          q.renderWith target options spellings? = .error e' ∧ e.anonymous = e'.anonymous) := by
  have hshape := eq_of_beq hshape
  exact ⟨map_anonymous_validate_eq hshape hp hq,
    eq_ok_or_eq_error_of_mapError_eq
      (mapError_renderWith_eq target spellings? hshape hp hq options)⟩

end Block

/-- A choice with a break that leaves no loop. -/
def strayBreak (first inner last : String) (collapsed : Bool) : Block :=
  .cons ⟨first, .ifThen, ["n > 0"], false, collapsed⟩
    (.cons ⟨inner, .breakLoop, [], false, false⟩ .nil .nil)
    (.cons ⟨last, .endIf, [], false, false⟩ .nil .nil)

/-- It is refused for the same reason under other identifiers and with its branch hidden. -/
theorem validate_renderWith_of_sameShape_strayBreak :
    let p := strayBreak "a" "b" "c" false
    let q := strayBreak "x" "y" "z" true
    p.sameShape q = true ∧ p.ids.Nodup ∧ q.ids.Nodup ∧
      p.validate.map Finding.anonymous = q.validate.map Finding.anonymous ∧
        ((∃ code, p.renderWith .vba {} none = .ok code ∧ q.renderWith .vba {} none = .ok code) ∨
          ∃ e e', p.renderWith .vba {} none = .error e ∧ q.renderWith .vba {} none = .error e' ∧
            e.anonymous = e'.anonymous) := by
  intro p q
  have hshape : p.sameShape q = true := by decide
  have hp : p.ids.Nodup := by decide
  have hq : q.ids.Nodup := by decide
  exact ⟨hshape, hp, hq, Block.validate_renderWith_of_sameShape .vba none hshape hp hq {}⟩

end BlockCode
