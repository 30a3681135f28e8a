/- # Inside and outside of strings

Operators, markers and brackets count only outside string literals. Three scans of a fragment
need to know where they are: the one that folds glyphs, the one that looks for negation
markers and the one that counts brackets. They share this notion of place. A backslash
matters inside a string only, where it protects the character after it.
-/

namespace BlockCode

/-- The place of a character with respect to string literals. -/
inductive Quotation where
  | outside
  | inside
  | escaped
  deriving DecidableEq, Repr, Inhabited

/-- The place after a character, where the double quote opens and closes. -/
def Quotation.after : Quotation → Char → Quotation
  | .outside, c => if c == '"' then .inside else .outside
  | .inside, c => if c == '\\' then .escaped else if c == '"' then .outside else .inside
  | .escaped, _ => .inside

end BlockCode
