/- # Resolving names

A speller may be slow, so its answers are kept from one rendering to the next, and it is never
asked twice for a name it has spelled. The spellings of one program are made distinct: one
that is already in use gets a number. Names are resolved in the order of their code points,
and a name without a spelling stops the resolution; what was found before it is kept.
-/

import BlockCode.Names.Identifier
import BlockCode.Names.Spelling

namespace BlockCode

/-- What is known of spellings, and how often the speller has been asked. -/
structure SpellingSession where
  known : Spellings := []
  asked : Nat := 0
  deriving DecidableEq, Repr, Inhabited

namespace SpellingSession

/-- The spelling that is known for a name. -/
def get? (session : SpellingSession) (name : String) : Option String :=
  session.known.spelling? name

/-- The session that knows a spelling for the name, in place of any before. -/
def insert (session : SpellingSession) (name spelling : String) : SpellingSession :=
  { session with
    known := (session.known.filter fun entry => entry.1 != name) ++ [(name, spelling)] }

/-- The spelling of a name: the one that is known, or else the speller's. -/
def resolve (session : SpellingSession) (speller : Speller) (name : String) :
    Except SpellingError String × SpellingSession :=
  match session.get? name with
  | some spelling => (.ok spelling, session)
  | none =>
    let asked := { session with asked := session.asked + 1 }
    match speller.spell name with
    | .ok spelling => (.ok spelling, asked.insert name spelling)
    | .error e => (.error e, asked)

end SpellingSession

/-- A spelling with a number at its end, from two on; the zeroth is the spelling itself. -/
def numberedSpelling (spelling : String) : Nat → String
  | 0 => spelling
  | k + 1 => spelling ++ "_" ++ toString (k + 2)

/-- The first numbered spelling that is not taken. There is one among as many as are taken and
one more. -/
def freshSpelling (taken : List String) (spelling : String) : String :=
  (((List.range (taken.length + 1)).map (numberedSpelling spelling)).find? fun candidate =>
    !taken.contains candidate).getD spelling

namespace SpellingSession

/-- Resolves the names one after the other. No spelling is taken, and none is given twice. -/
def resolveAll (session : SpellingSession) (speller : Speller) (taken : List String) :
    List String → Except SpellingError Spellings × SpellingSession
  | [] => (.ok [], session)
  | name :: rest =>
    match session.resolve speller name with
    | (.error e, session) => (.error e, session)
    | (.ok spelling, session) =>
      let fresh := freshSpelling taken spelling
      let (spellings, session) := session.resolveAll speller (fresh :: taken) rest
      (spellings.map ((name, fresh) :: ·), session)

/-- The spellings of the names of a program that are not ASCII. They keep clear of the names
that are. -/
def resolveProgram (session : SpellingSession) (speller : Speller) (program : Block) :
    Except SpellingError Spellings × SpellingSession :=
  session.resolveAll speller (program.identifiers.filter isAsciiText) program.nonAsciiIdentifiers

end SpellingSession

end BlockCode
