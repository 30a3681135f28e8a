/- # One target and all targets

The command renders to the target that is asked for, or to all of them. For one target it resolves
names only if the target needs that, takes an empty table of spellings if not, and checks the
program again. For all targets it checks the program and resolves the names once, and a target that
takes names as they are gets no table. Spelling names by code points never fails, and an empty table
leaves each dotted name whole, so both ways come to the same code, or to the same error.
-/

import BlockCode.Command.Run
import BlockCode.Proofs.Target.AsciiNames
import BlockCode.Proofs.Target.Naming

namespace BlockCode

variable {program : Block} {options : RenderOptions}

/-! ## Rendering one target -/

/-- Where the target takes names as they are, an empty table does what no table does. -/
theorem renderChecked_nil {target : Target} (hneeds : target.needsAsciiNames = false) :
    program.renderChecked target options (some []) =
      program.renderChecked target options none := by
  have hspelled (spellings? : Option Spellings) :
      program.checkSpelled target spellings? = .ok () := by
    rw [Block.checkSpelled, hneeds]
    rfl
  rw [Block.renderChecked, Block.renderChecked, hspelled, hspelled,
    Block.generate_congr spellAlike_nil]

/-- A target that needs spellings sees them, and any other is rendered as if there were none. -/
theorem renderOne_eq_renderChecked {spellings : Spellings}
    (hvalid : program.checkValid = .ok ())
    (hspellings : (SpellingSession.spellingsFor {} codePointSpeller program).1 = .ok spellings)
    (target : Target) :
    renderOne program target options = program.renderChecked target options
      (if target.needsAsciiNames then some spellings else none) := by
  rw [renderOne, hspellings]
  cases hneeds : target.needsAsciiNames with
  | true =>
      change program.renderWith target options (some spellings) = _
      rw [Block.renderWith, hvalid]
      rfl
  | false =>
      change program.renderWith target options (some []) = _
      rw [Block.renderWith, hvalid]
      exact renderChecked_nil hneeds

/-- For a program without findings nothing is left to refuse, and code is generated. -/
theorem exists_renderOne_eq_generate (hvalid : program.validate = []) (options : RenderOptions) :
    ∃ spellings : Spellings, spellings.Lettered ∧ ∀ target,
      renderOne program target options = program.generate target options
        (if target.needsAsciiNames then some spellings else none) := by
  obtain ⟨spellings, hresolve, hnames, hlettered, -⟩ := exists_spellingsFor_codePointSpeller program
  have hchecked : program.checkValid = .ok () := by rw [Block.checkValid, hvalid]
  refine ⟨spellings, hlettered, fun target => ?_⟩
  have hspelled : program.checkSpelled target
      (if target.needsAsciiNames then some spellings else none) = .ok () := by
    cases hneeds : target.needsAsciiNames with
    | false => rw [Block.checkSpelled, hneeds]; rfl
    | true => exact Block.checkSpelled_eq_ok hnames
  rw [renderOne_eq_renderChecked hchecked (SpellingSession.spellingsFor_eq_ok hresolve),
    Block.renderChecked, hspelled]
  rfl

/-- The code of one target comes out unless a counting loop overflows. -/
theorem renderOne_overflowsOnlyIf (hvalid : program.validate = []) (target : Target) :
    OverflowsOnlyIf (renderOne program target options) (program.OverflowsIn target) := by
  obtain ⟨spellings, hlettered, hgenerate⟩ := exists_renderOne_eq_generate hvalid options
  have hknown : ∀ known ∈ if target.needsAsciiNames then some spellings else none,
      known.Lettered := by
    split
    · rintro _ ⟨⟩
      exact hlettered
    · rintro _ ⟨⟩
  rw [hgenerate]
  exact (Block.document_overflowsOnlyIf hknown (Block.wellFormed_of_validate hvalid).orderly
    (Block.checked_of_validate hvalid) options).map.map

/-! ## Rendering all targets -/

/-- Rendering every target is rendering one after the other, for any program. -/
theorem renderAll_eq_mapM_renderOne (program : Block) (options : RenderOptions) :
    (SpellingSession.renderAll {} codePointSpeller program options).1 =
      Target.all.mapM fun target =>
        (renderOne program target options).map fun code => (target, code) := by
  obtain ⟨spellings, hresolve, -⟩ := exists_spellingsFor_codePointSpeller program
  have hspellings := SpellingSession.spellingsFor_eq_ok hresolve
  cases hvalid : program.checkValid with
  | error e =>
      -- The first target refuses the program for its findings before it looks at anything else.
      have hfirst : renderOne program .javaScript options = .error e := by
        change program.renderWith .javaScript options (some []) = .error e
        rw [Block.renderWith, hvalid]
        rfl
      rw [SpellingSession.renderAll, hvalid, Target.all, List.mapM_cons, hfirst]
      rfl
  | ok _ =>
      have hone :
          (fun target => (renderOne program target options).map fun code => (target, code)) =
            fun target => do
              let code ← program.renderChecked target options
                (if target.needsAsciiNames then some spellings else none)
              return (target, code) := by
        funext target
        rw [renderOne_eq_renderChecked hvalid hspellings]
        cases program.renderChecked target options _ with
        | error e => rfl
        | ok code => rfl
      rw [SpellingSession.renderAll, hvalid, hone]
      change (SpellingSession.spellingsFor {} codePointSpeller program).1 >>= _ = _
      rw [hspellings]
      rfl

/-- Where each target gives code, all of them together give these codes. -/
theorem renderAll_eq_ok {code : Target → String}
    (hcode : ∀ target, renderOne program target options = .ok (code target)) :
    (SpellingSession.renderAll {} codePointSpeller program options).1 =
      .ok (Target.all.map fun target => (target, code target)) := by
  have hone : (fun target => (renderOne program target options).map fun code => (target, code)) =
      fun target => pure (target, code target) := by
    funext target
    rw [hcode]
    rfl
  rw [renderAll_eq_mapM_renderOne, hone, List.mapM_pure]
  rfl

/-! ## Running the command -/

/-- The arguments ask for code that is shown. -/
structure Arguments.ShowsCode (arguments : Arguments) : Prop where
  flatten : arguments.flatten = false
  check : arguments.check = false
  output? : arguments.output? = none

/-- The arguments with another choice of targets. -/
def Arguments.withTarget (arguments : Arguments) (target? : Option Target) : Arguments :=
  { arguments with target? }

@[simp]
theorem Arguments.target?_withTarget (arguments : Arguments) (target? : Option Target) :
    (arguments.withTarget target?).target? = target? :=
  rfl

/-- A program without findings is read, rendered and shown. -/
theorem run_runCommand {tree : FileTree} {text : String} {arguments : Arguments}
    {target? : Option Target} {outputs : List (Target × String)} {words : List String}
    (hread : tree.read arguments.file = .ok text) (hload : Block.load? text = some program)
    (hvalid : program.validate = []) (hshows : arguments.ShowsCode)
    (hwords : Request.ofArguments? words = some (.render (arguments.withTarget target?)))
    (houtputs : renderRequested program (arguments.withTarget target?) = .ok outputs) :
    (runCommand FileTree.access words).run tree =
      (.ok (shownCode (arguments.withTarget target?) outputs), tree) := by
  have haccess : (FileTree.access.read arguments.file).run tree = (.ok text, tree) := by
    change ((tree.read arguments.file).mapError FileError.reason, tree) = _
    rw [hread]
    rfl
  have hrun : runProgram FileTree.access (arguments.withTarget target?) program =
      pure (.ok (shownCode (arguments.withTarget target?) outputs)) := by
    obtain ⟨hflatten, hcheck, houtput⟩ : (arguments.withTarget target?).ShowsCode :=
      ⟨hshows.flatten, hshows.check, hshows.output?⟩
    rw [runProgram, hflatten, hvalid, hcheck, houtputs, houtput]
    rfl
  rw [runCommand, hwords]
  change (FileTree.access.read arguments.file >>= _).run tree = _
  rw [StateT.run_bind, haccess]
  simp only [bind, hload, hrun]
  rfl

/-- One target or all targets, the code is the same. For a program without findings whose rendering
does not overflow, each target has a code that is shown when the target is asked for, and that
stands in the target's section when all are. Of a target that takes names as they are it is the code
that is generated with an empty table of spellings and the code that is generated without one. -/
theorem runCommand_everyTarget {tree : FileTree} {text : String} {arguments : Arguments}
    (hread : tree.read arguments.file = .ok text) (hload : Block.load? text = some program)
    (hvalid : program.validate = []) (hshows : arguments.ShowsCode)
    (hover : ∀ target operation,
      renderOne program target arguments.options ≠ .error (.overflow operation)) :
    ∃ code : Target → String,
      (∀ target words,
        Request.ofArguments? words = some (.render (arguments.withTarget (some target))) →
          (runCommand FileTree.access words).run tree = (.ok (code target), tree)) ∧
      (∀ words, Request.ofArguments? words = some (.render (arguments.withTarget none)) →
        (runCommand FileTree.access words).run tree =
          (.ok (String.join (Target.all.map fun target =>
            "==> " ++ target.name ++ " <==\n" ++ code target ++ "\n")), tree)) ∧
      ∀ target, target.needsAsciiNames = false →
        program.generate target arguments.options (some []) = .ok (code target) ∧
          program.generate target arguments.options none = .ok (code target) := by
  have hok (target : Target) : ∃ code, renderOne program target arguments.options = .ok code := by
    rcases renderOne_overflowsOnlyIf hvalid target with h | ⟨⟨operation, h⟩, -⟩
    · exact h
    · exact absurd h (hover target operation)
  choose code hcode using hok
  refine ⟨code, fun target words hwords => ?_, fun words hwords => ?_, fun target hneeds => ?_⟩
  · have houtputs : renderRequested program (arguments.withTarget (some target)) =
        .ok [(target, code target)] := by
      change (renderOne program target arguments.options).map _ = _
      rw [hcode]
      rfl
    have hshown : shownCode (arguments.withTarget (some target)) [(target, code target)] =
        code target := String.empty_append
    rw [run_runCommand hread hload hvalid hshows hwords houtputs, hshown]
  · have hshown : shownCode (arguments.withTarget none)
          (Target.all.map fun target => (target, code target)) =
        String.join (Target.all.map fun target =>
          "==> " ++ target.name ++ " <==\n" ++ code target ++ "\n") := by
      rw [shownCode, Arguments.target?_withTarget, if_neg (by decide), List.map_map]
      simp only [Function.comp_def]
    rw [run_runCommand hread hload hvalid hshows hwords (renderAll_eq_ok hcode), hshown]
  · obtain ⟨_, -, hgenerate⟩ := exists_renderOne_eq_generate hvalid arguments.options
    rw [Block.generate_congr spellAlike_nil, and_self, ← hcode, hgenerate, hneeds]
    rfl

/-- The length of an array whose name is not ASCII. -/
def foreignLength : Block :=
  .cons ⟨"a", .output, ["表.length"], false, false⟩ .nil .nil

/-- A directory with the program, saved with its fields as a list. -/
def foreignFiles : FileTree :=
  .withWorkingFiles [("a.json", "[[\"a\", \"output\", [\"表.length\"]]]")]

/-- The program is shown as VBA, and with the same code among all targets. -/
theorem runCommand_everyTarget_foreignLength :
    ∃ code : Target → String,
      (runCommand FileTree.access ["--target", "vba", "--indent=2", "a.json"]).run foreignFiles =
        (.ok (code .vba), foreignFiles) ∧
      (runCommand FileTree.access ["a.json", "--all", "--indent", "2"]).run foreignFiles =
        (.ok (String.join (Target.all.map fun target =>
          "==> " ++ target.name ++ " <==\n" ++ code target ++ "\n")), foreignFiles) := by
  have hread : foreignFiles.read "a.json" = .ok "[[\"a\", \"output\", [\"表.length\"]]]" := by
    decide +kernel
  have hload : Block.load? "[[\"a\", \"output\", [\"表.length\"]]]" = some foreignLength := by
    decide +kernel
  have hvalid : foreignLength.validate = [] := by decide +kernel
  have hover (target : Target) (operation : Overflow) :
      renderOne foreignLength target { indentWidth := 2 } ≠ .error (.overflow operation) := by
    intro h
    have hkinds : ∀ s ∈ foreignLength.statements, s.kind = .output := by decide
    rcases renderOne_overflowsOnlyIf hvalid target with ⟨code, hcode⟩ | ⟨-, s, hs, hoverflows⟩
    · cases hcode.symm.trans h
    · cases target with
      | javaScript => exact hoverflows.elim
      | python | vba | ruby => cases (hkinds s hs).symm.trans hoverflows.1
  obtain ⟨code, hone, hall, -⟩ := @runCommand_everyTarget foreignLength foreignFiles _
    ⟨"a.json", none, none, false, false, { indentWidth := 2 }⟩ hread hload hvalid ⟨rfl, rfl, rfl⟩
    hover
  exact ⟨code, hone .vba _ (by decide +kernel), hall _ (by decide +kernel)⟩

end BlockCode
