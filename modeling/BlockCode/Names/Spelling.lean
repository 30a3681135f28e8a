/- # Spelling names in ASCII

Some targets take only ASCII names. A speller proposes a spelling for a name, or says why it
has none; a proposal counts only if it is an ASCII variable name. There is a speller that
never fails: it writes each foreign character by its code point.
-/

import BlockCode.Form.Grammar

namespace BlockCode

/-- Proposes a spelling for a name, or gives the reason why there is none. -/
abbrev Speller := String → Except String String

/-- Whether the character may stand in an ASCII name. -/
def isAsciiNamePart (c : Char) : Bool :=
  isAsciiLetter c || isAsciiDigit c || c == '_'

/-- The name with each foreign character written by its code point. A leading letter is put in
front unless there is one. -/
def spellByCodePoints (name : String) : String :=
  let spelled := name.toList.flatMap fun c =>
    if isAsciiNamePart c then [c] else '_' :: 'u' :: hexDigits c.toNat
  String.ofList (if spelled.head?.any isAsciiLetter then spelled else 'v' :: spelled)

/-- The speller that writes code points. -/
def codePointSpeller : Speller := fun name => .ok (spellByCodePoints name)

/-- Why a name has no spelling. -/
inductive SpellingError where
  | refused (name : String) (reason : String)
  | invalid (name : String) (spelling : String)
  deriving DecidableEq, Repr

/-- The wording of the error. -/
def SpellingError.message : SpellingError → String
  | .refused name reason => "could not transliterate `" ++ name ++ "`: " ++ reason
  | .invalid name spelling =>
    "`" ++ name ++ "` transliterated to `" ++ spelling ++ "`, which is not an ASCII identifier"

/-- Whether the text can be the spelling of a name. -/
def isSpelling (text : String) : Bool :=
  isAsciiText text && isVariableName text

/-- The speller's proposal, if it is a spelling. -/
def Speller.spell (speller : Speller) (name : String) : Except SpellingError String :=
  match speller name with
  | .error reason => .error (.refused name reason)
  | .ok spelling => if isSpelling spelling then .ok spelling else .error (.invalid name spelling)

end BlockCode
