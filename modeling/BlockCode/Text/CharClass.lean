/- # Character classes given by ranges

A character class is written as a sorted list of closed ranges of code points. Membership
walks the list once and stops at the first range that lies above the character, so a
character of the ASCII block is decided by the first few entries of any table.
-/

namespace BlockCode

/-- A class of characters: closed ranges of code points in ascending order. -/
abbrev CharClass := List (Nat × Nat)

namespace CharClass

/-- Whether the code point lies in one of the ranges. -/
def hasCode : CharClass → Nat → Bool
  | [], _ => false
  | (first, last) :: rest, code =>
    if code < first then false
    else if code ≤ last then true
    else hasCode rest code

/-- Whether the character belongs to the class. -/
def has (ranges : CharClass) (c : Char) : Bool :=
  ranges.hasCode c.toNat

end CharClass

end BlockCode
