/- # Rendering

A program is rendered only if it has no finding, and into a target that takes ASCII names only
if every other name has a spelling.
-/

import BlockCode.Check.Validate
import BlockCode.Names.Session
import BlockCode.Target.Passage

namespace BlockCode

namespace Block

/-- Refuses a program with findings. -/
def checkValid (program : Block) : Except RenderError Unit :=
  match program.validate with
  | [] => .ok ()
  | findings => .error (.invalidProgram findings)

/-- The identifiers that are not ASCII and have no spelling. -/
def unspelled (program : Block) (spellings? : Option Spellings) : List String :=
  match spellings? with
  | none => program.nonAsciiIdentifiers
  | some spellings =>
    program.nonAsciiIdentifiers.filter fun name => (spellings.spelling? name).isNone

/-- Refuses a program with names that the target cannot spell and that have no spelling. -/
def checkSpelled (program : Block) (target : Target) (spellings? : Option Spellings) :
    Except RenderError Unit :=
  if target.needsAsciiNames then
    match program.unspelled spellings? with
    | [] => .ok ()
    | names => .error (.unspelledNames names)
  else .ok ()

/-- The code of a program without findings. -/
def renderChecked (program : Block) (target : Target) (options : RenderOptions)
    (spellings? : Option Spellings) : Except RenderError String := do
  program.checkSpelled target spellings?
  program.generate target options spellings?

/-- The code of a program with some names spelled differently. -/
def renderWith (program : Block) (target : Target) (options : RenderOptions)
    (spellings? : Option Spellings) : Except RenderError String := do
  program.checkValid
  program.renderChecked target options spellings?

/-- The code of a program with its names as they are. -/
def render (program : Block) (target : Target) (options : RenderOptions) :
    Except RenderError String :=
  program.renderWith target options none

end Block

namespace SpellingSession

/-- The spellings of a program, where a name without one is an error of rendering. -/
def spellingsFor (session : SpellingSession) (speller : Speller) (program : Block) :
    Except RenderError Spellings × SpellingSession :=
  let (spellings, session) := session.resolveProgram speller program
  (spellings.mapError .spelling, session)

/-- The code of a program in every target. Only a target that needs spellings sees them. -/
def renderAll (session : SpellingSession) (speller : Speller) (program : Block)
    (options : RenderOptions) : Except RenderError (List (Target × String)) × SpellingSession :=
  match program.checkValid with
  | .error e => (.error e, session)
  | .ok () =>
    let (spellings, session) := session.spellingsFor speller program
    let outputs := do
      let spellings ← spellings
      Target.all.mapM fun target => do
        let spellings? := if target.needsAsciiNames then some spellings else none
        return (target, ← program.renderChecked target options spellings?)
    (outputs, session)

end SpellingSession

end BlockCode
