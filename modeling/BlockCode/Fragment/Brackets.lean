/- # Bracket balance

Looks at the parentheses of all operands of a statement together and reports three problems
independently of each other: a different number of opening and closing parentheses, a closing
one before its opening one, and a pair with nothing in it. A pair directly after a name is a
call without arguments, which is no problem. Strings and white space do not count.
-/

import BlockCode.Expr.Error
import BlockCode.Fragment.Quotation
import BlockCode.Text.Alphabetic
import BlockCode.Text.Blank

namespace BlockCode

/-- What has been seen so far. `previous` is the last character that counts, and `beforeOpen`
is what stood before the last opening parenthesis while nothing has followed it. -/
structure BracketScan where
  opened : Nat := 0
  closed : Nat := 0
  outOfOrder : Bool := false
  emptyPair : Bool := false
  previous : Option Char := none
  beforeOpen : Option (Option Char) := none
  deriving DecidableEq, Repr, Inhabited

namespace BracketScan

/-- Whether a name may end with the character. -/
def endsName (c : Char) : Bool :=
  isAlphanumeric c || c == '_'

/-- Goes over one character that counts and stands outside strings. -/
def see (scan : BracketScan) (c : Char) : BracketScan :=
  if c == '(' then
    { scan with opened := scan.opened + 1, beforeOpen := some scan.previous, previous := some c }
  else if c == ')' then
    { scan with
      closed := scan.closed + 1
      outOfOrder := scan.outOfOrder || scan.closed + 1 > scan.opened
      emptyPair := scan.emptyPair || scan.beforeOpen.any fun before => !before.any endsName
      beforeOpen := none
      previous := some c }
  else { scan with beforeOpen := none, previous := some c }

/-- Goes over a fragment from the given place on. Only the quotes of a string count. -/
def scanFrom (scan : BracketScan) (place : Quotation) : List Char → BracketScan
  | [] => scan
  | c :: rest =>
    let seen :=
      match place with
      | .outside => if isBlank c then scan else scan.see c
      | .inside => if c == '"' then scan.see c else scan
      | .escaped => scan
    seen.scanFrom (place.after c) rest

/-- The problems, always in the same order. -/
def errors (scan : BracketScan) : List BracketError :=
  (if scan.opened > scan.closed then [BracketError.missingRight]
    else if scan.closed > scan.opened then [BracketError.missingLeft] else [])
    ++ (if scan.outOfOrder then [BracketError.order] else [])
    ++ (if scan.emptyPair then [BracketError.emptyPair] else [])

end BracketScan

/-- The bracket problems of the fragments of a statement. Each fragment starts outside
strings. -/
def bracketErrors (fragments : List (List Char)) : List BracketError :=
  (fragments.foldl (fun (scan : BracketScan) fragment => scan.scanFrom .outside fragment) {}).errors

end BlockCode
