/- # Glyphs

Operands are often typed with an input method for Japanese, so operators arrive as full-width
forms, as mathematical signs or as words. Folding turns all of them into the ASCII operators
that the lexer knows. The contents of string literals are text and stay as they are; a corner
bracket opens and closes a string just as a double quote does.
-/

import BlockCode.Fragment.Quotation
import BlockCode.Text.Basic

namespace BlockCode

/-- The words that join conditions, and what they become. -/
def connectives : List (String × String) :=
  [("かつ", " && "), ("または", " || ")]

/-- The ASCII spelling of an operator glyph. Corner brackets are not among them, because they
also change the place. -/
def operatorGlyph? (c : Char) : Option String :=
  if c == '×' then some "*"
  else if c == '÷' then some "//"
  else if c == '−' then some "-"
  else if c == '≠' then some "!="
  else if c == '≧' || c == '≥' then some ">="
  else if c == '≦' || c == '≤' then some "<="
  else if c == '、' then some ","
  else if c == '\u3000' then some " "
  else none

/-- Whether the character is a corner bracket. -/
def isCornerBracket (c : Char) : Bool :=
  c == '「' || c == '」'

/-- The ASCII character of a full-width form, and any other character itself. -/
def foldWidth (c : Char) : Char :=
  if 0xFF01 ≤ c.toNat && c.toNat ≤ 0xFF5E then Char.ofNat (c.toNat - 0xFEE0) else c

/-- The connective at the front: what it becomes and how many characters it has beyond its
first. -/
def connective? (text : List Char) : Option (List Char × Nat) :=
  (connectives.find? fun (word, _) => startsWithWord word.toList text).map
    fun (word, symbol) => (symbol.toList, word.length - 1)

/-- A character outside strings: what it becomes and where that leaves the scan. A quote that
opens a string stays as it was typed. -/
def foldOutside (c : Char) : List Char × Quotation :=
  if isCornerBracket c then (['"'], .inside)
  else
    match operatorGlyph? (foldWidth c) with
    | some replacement => (replacement.toList, .outside)
    | none => if foldWidth c == '"' then ([c], .inside) else ([foldWidth c], .outside)

/-- A character inside a string: what it becomes and where that leaves the scan. -/
def foldInside (c : Char) : List Char × Quotation :=
  if c == '\\' then ([c], .escaped)
  else if isCornerBracket c || foldWidth c == '"' then (['"'], .outside)
  else ([c], .inside)

/-- Folds a text whose first character is at the given place. -/
def foldGlyphsFrom (place : Quotation) : List Char → List Char
  | [] => []
  | c :: rest =>
    match place with
    | .escaped => c :: foldGlyphsFrom .inside rest
    | .inside =>
      let (folded, next) := foldInside c
      folded ++ foldGlyphsFrom next rest
    | .outside =>
      match connective? (c :: rest) with
      | some (symbol, beyond) => symbol ++ foldGlyphsFrom .outside (rest.drop beyond)
      | none =>
        let (folded, next) := foldOutside c
        folded ++ foldGlyphsFrom next rest
termination_by text => text.length
decreasing_by all_goals (simp only [List.length_cons, List.length_drop]; omega)

/-- Folds the glyphs of a fragment. -/
def foldGlyphs (fragment : List Char) : List Char :=
  foldGlyphsFrom .outside fragment

/-- Folds the glyphs of a fragment given as a string. -/
def foldGlyphsText (fragment : String) : String :=
  String.ofList (foldGlyphs fragment.toList)

end BlockCode
