/- # String literals read by a target

Every target writes a string between double quotes and has rules of its own for what may stand
there: which characters a backslash stands in front of, whether a quote is written twice, what must
not stand by itself. A reader goes by the rules of a target and starts behind the opening quote. On
the literal that is printed for a string it stops at the last quote, and what it has read is the
string.

The dialects quote character by character. That comes to the same as replacing one character after
the other in the whole string, as long as the backslash is replaced first.
-/

import BlockCode.Target.ExprPrinter

namespace BlockCode

/-! ## Reading -/

/-- What a target understands between the quotes of a string literal. -/
structure LiteralRules where
  /-- The characters that a backslash stands in front of. Without any, a backslash is a character
  like others. -/
  escapable : List Char := []
  /-- Whether two quotes in a row are a quote of the contents. -/
  doublesQuote : Bool := false
  /-- The characters that do not stand by themselves. -/
  refused : List Char
  deriving DecidableEq, Repr

/-- The contents of a literal whose opening quote has been passed, and what follows the quote that
closes it. -/
def LiteralRules.read? (rules : LiteralRules) : List Char → Option (List Char × List Char)
  | [] => none
  | c :: rest =>
    if c == '"' then
      match rest with
      | [] => some ([], [])
      | d :: behind =>
        if rules.doublesQuote && d == '"' then
          (rules.read? behind).map fun (contents, rest) => ('"' :: contents, rest)
        else some ([], d :: behind)
    else if c == '\\' && !rules.escapable.isEmpty then
      match rest with
      | [] => none
      | d :: behind =>
        if rules.escapable.contains d then
          (rules.read? behind).map fun (contents, rest) => (d :: contents, rest)
        else none
    else if rules.refused.contains c then none
    else (rules.read? rest).map fun (contents, rest) => (c :: contents, rest)

/-- The characters that end a line, and with it a literal that is not closed before. -/
def Target.lineBreaks : Target → List Char
  | .javaScript | .python | .ruby => ['\n', '\r']
  | .vba => ['\n', '\r', '\u2028', '\u2029']

/-- The rules of a target. A hash sign could start an interpolation in Ruby. -/
def Target.literalRules (target : Target) : LiteralRules :=
  match target with
  | .javaScript | .python => { escapable := ['\\', '"'], refused := target.lineBreaks }
  | .ruby => { escapable := ['\\', '"', '#'], refused := '#' :: target.lineBreaks }
  | .vba => { doublesQuote := true, refused := target.lineBreaks }

/-- The string that a literal at the front of a text stands for, and what follows the literal. -/
def Target.readLiteral? (target : Target) : List Char → Option (String × List Char)
  | [] => none
  | c :: text =>
    if c == '"' then
      (target.literalRules.read? text).map fun (contents, rest) => (String.ofList contents, rest)
    else none

namespace LiteralRules

variable {rules : LiteralRules}

/-- The text stands for the character by itself, whatever follows. -/
def ReadsChar (rules : LiteralRules) (text : List Char) (c : Char) : Prop :=
  ∀ rest, rules.read? (text ++ rest) =
    (rules.read? rest).map fun (contents, rest) => (c :: contents, rest)

theorem readsChar_plain {c : Char} (hquote : c ≠ '"')
    (hslash : c = '\\' → rules.escapable = []) (hrefused : c ∉ rules.refused) :
    rules.ReadsChar [c] c := by
  intro rest
  have hescape : ¬ (c == '\\' && !rules.escapable.isEmpty) = true := by
    intro h
    rw [Bool.and_eq_true, beq_iff_eq] at h
    rw [hslash h.1] at h
    cases h.2
  rw [List.singleton_append, read?.eq_def]
  dsimp only
  rw [if_neg (by simpa using hquote), if_neg hescape, if_neg (by simpa using hrefused)]

theorem readsChar_escaped {c : Char} (h : c ∈ rules.escapable) : rules.ReadsChar ['\\', c] c := by
  intro rest
  have hescape : ('\\' == '\\' && !rules.escapable.isEmpty) = true := by
    rw [Bool.and_eq_true, Bool.not_eq_true', List.isEmpty_eq_false_iff]
    exact ⟨rfl, List.ne_nil_of_mem h⟩
  rw [List.cons_append, List.singleton_append, read?.eq_def]
  dsimp only
  rw [if_neg (by decide), if_pos hescape, if_pos (List.contains_iff_mem.mpr h)]

theorem readsChar_doubled (h : rules.doublesQuote = true) : rules.ReadsChar ['"', '"'] '"' := by
  intro rest
  rw [List.cons_append, List.singleton_append, read?.eq_def]
  dsimp only
  rw [if_pos (by rfl), if_pos (by simp [h])]

/-- A quote closes the literal unless it is the first of two that stand for one. -/
theorem read?_quote {rest : List Char}
    (h : rules.doublesQuote = true → rest.head? ≠ some '"') :
    rules.read? ('"' :: rest) = some ([], rest) := by
  rw [read?.eq_def]
  dsimp only
  rw [if_pos (by rfl)]
  cases rest with
  | nil => rfl
  | cons d behind =>
      have hsingle : ¬ (rules.doublesQuote && d == '"') = true := by
        intro hdouble
        rw [Bool.and_eq_true, beq_iff_eq] at hdouble
        exact h hdouble.1 (congrArg some hdouble.2)
      dsimp only
      rw [if_neg hsingle]

/-- Where every character of a string has a text that stands for it, the texts one after the other
stand for the string, up to the quote behind them. -/
theorem read?_quoted {quoted : Char → List Char} {contents rest : List Char}
    (hquoted : ∀ c ∈ contents, rules.ReadsChar (quoted c) c)
    (hrest : rules.doublesQuote = true → rest.head? ≠ some '"') :
    rules.read? (contents.flatMap quoted ++ '"' :: rest) = some (contents, rest) := by
  induction contents with
  | nil => exact read?_quote hrest
  | cons c contents ih =>
      rw [List.forall_mem_cons] at hquoted
      rw [List.flatMap_cons, List.append_assoc, hquoted.1, ih hquoted.2]
      rfl

end LiteralRules

/-! ## Quoting -/

/-- Quoted with backslashes, each character stands for itself. -/
theorem readsChar_backslashQuoted {rules : LiteralRules} {c : Char}
    (hslash : '\\' ∈ rules.escapable) (hquote : '"' ∈ rules.escapable) (hc : c ∉ rules.refused) :
    rules.ReadsChar (Dialect.backslashQuoted c) c := by
  rw [Dialect.backslashQuoted]
  split
  · rename_i hspecial
    rw [Bool.or_eq_true, beq_iff_eq, beq_iff_eq] at hspecial
    rcases hspecial with rfl | rfl
    · exact LiteralRules.readsChar_escaped hslash
    · exact LiteralRules.readsChar_escaped hquote
  · rename_i hspecial
    rw [Bool.or_eq_true, beq_iff_eq, beq_iff_eq, not_or] at hspecial
    exact LiteralRules.readsChar_plain hspecial.2 (fun h => absurd h hspecial.1) hc

/-- The rules of a target read each character that is quoted for it, line breaks apart. -/
theorem Target.readsChar_quotedChar (target : Target) {c : Char} (hc : c ∉ target.lineBreaks) :
    target.literalRules.ReadsChar (target.dialect.quotedChar c) c := by
  cases target with
  | javaScript | python => exact readsChar_backslashQuoted (by decide) (by decide) hc
  | vba =>
      change LiteralRules.ReadsChar _ (if c == '"' then ['"', '"'] else [c]) c
      split
      · rename_i hquote
        rw [eq_of_beq hquote]
        exact LiteralRules.readsChar_doubled rfl
      · rename_i hquote
        exact LiteralRules.readsChar_plain (by simpa using hquote) (fun _ => rfl) hc
  | ruby =>
      change LiteralRules.ReadsChar _ (if c == '#' then ['\\', c] else Dialect.backslashQuoted c) c
      split
      · rename_i hhash
        rw [eq_of_beq hhash]
        exact LiteralRules.readsChar_escaped (by decide)
      · rename_i hhash
        refine readsChar_backslashQuoted (by decide) (by decide) ?_
        exact List.not_mem_cons_of_ne_of_not_mem (by simpa using hhash) hc

/-- The text with the word in place of every occurrence of the character. -/
def replaceChar (replacement : Char × List Char) (text : List Char) : List Char :=
  text.flatMap fun c => if c == replacement.1 then replacement.2 else [c]

/-- What a target replaces in the contents of a string literal, in order. -/
def Target.replacements : Target → List (Char × List Char)
  | .javaScript | .python => [('\\', ['\\', '\\']), ('"', ['\\', '"'])]
  | .ruby => [('\\', ['\\', '\\']), ('"', ['\\', '"']), ('#', ['\\', '#'])]
  | .vba => [('"', ['"', '"'])]

/-- The contents of a string literal after all replacements. -/
def Target.replaced (target : Target) (contents : List Char) : List Char :=
  target.replacements.foldl (fun text replacement => replaceChar replacement text) contents

/-- Replacements one after the other work on each character by itself. -/
theorem foldl_replaceChar_eq_flatMap (replacements : List (Char × List Char)) (text : List Char) :
    replacements.foldl (fun text replacement => replaceChar replacement text) text =
      text.flatMap fun c =>
        replacements.foldl (fun text replacement => replaceChar replacement text) [c] := by
  induction replacements generalizing text with
  | nil => exact (List.flatMap_singleton' text).symm
  | cons replacement replacements ih =>
      rw [List.foldl_cons, ih, replaceChar, List.flatMap_assoc]
      refine congrArg (text.flatMap ·) (funext fun c => ?_)
      rw [List.foldl_cons, replaceChar, List.flatMap_singleton]
      exact (ih _).symm

/-- A character is quoted as the replacements leave it. -/
theorem Target.quotedChar_eq_replaced (target : Target) (c : Char) :
    target.dialect.quotedChar c = target.replaced [c] := by
  by_cases hslash : c = '\\'
  · subst hslash
    cases target <;> rfl
  · by_cases hquote : c = '"'
    · subst hquote
      cases target <;> rfl
    · by_cases hhash : c = '#'
      · subst hhash
        cases target <;> rfl
      · cases target <;>
          simp [replaced, replacements, replaceChar, dialect, Dialect.javaScript, Dialect.python,
            Dialect.vba, Dialect.ruby, Dialect.backslashQuoted, hslash, hquote, hhash]

/-- The literal of a string is the string with the replacements made in it, between quotes. -/
theorem Target.toList_stringLiteral (target : Target) (contents : String) :
    (target.dialect.stringLiteral contents).toList =
      '"' :: (target.replaced contents.toList ++ ['"']) := by
  have hquoted : target.dialect.quotedChar = fun c => target.replaced [c] :=
    funext target.quotedChar_eq_replaced
  rw [Dialect.stringLiteral, String.toList_ofList, hquoted, List.cons_append, replaced,
    foldl_replaceChar_eq_flatMap]
  rfl

/-- The literal that is printed for a string is its contents with the target's replacements made,
between quotes. In front of any text that does not go on with it, the target reads it up to its last
quote and gets the string back. -/
theorem Target.readLiteral?_text_string (target : Target) (spellings? : Option Spellings)
    (span : Span) {contents : String} (hbreaks : ∀ c ∈ contents.toList, c ∉ target.lineBreaks)
    {rest : List Char} (hrest : target = .vba → rest.head? ≠ some '"') :
    ((target.printer spellings?).text (.string span contents)).toList =
        '"' :: (target.replaced contents.toList ++ ['"']) ∧
      target.readLiteral?
          (((target.printer spellings?).text (.string span contents)).toList ++ rest) =
        some (contents, rest) := by
  have htext : (target.printer spellings?).text (.string span contents) =
      target.dialect.stringLiteral contents := by
    rw [ExprPrinter.text, ExprPrinter.print]
    rfl
  have hdoubles : target.literalRules.doublesQuote = true → rest.head? ≠ some '"' := by
    intro h
    refine hrest ?_
    cases target <;> first | rfl | cases h
  have hread := LiteralRules.read?_quoted
    (fun c hc => target.readsChar_quotedChar (hbreaks c hc)) hdoubles
  refine ⟨by rw [htext, toList_stringLiteral], ?_⟩
  rw [htext, Dialect.stringLiteral, String.toList_ofList, List.cons_append, List.cons_append,
    List.append_assoc, List.singleton_append, readLiteral?, if_pos (by rfl), hread, Option.map_some]
  exact congrArg (fun text => some (text, rest)) String.ofList_toList

/-- Contents that look escaped already, in front of an operator: `\"#` ends in a hash sign that
would start an interpolation. -/
theorem Target.readLiteral?_text_escapedLooking :
    (∀ c ∈ ("\\\"#\x7bx\x7d\\" : String).toList, c ∉ Target.ruby.lineBreaks) ∧
      (Target.ruby = .vba → (" + 1".toList).head? ≠ some '"') ∧
      ((Target.ruby.printer none).text (.string ⟨0, 0⟩ "\\\"#\x7bx\x7d\\")).toList =
        '"' :: (Target.ruby.replaced "\\\"#\x7bx\x7d\\".toList ++ ['"']) ∧
      Target.ruby.readLiteral?
          (((Target.ruby.printer none).text (.string ⟨0, 0⟩ "\\\"#\x7bx\x7d\\")).toList ++
            " + 1".toList) =
        some ("\\\"#\x7bx\x7d\\", " + 1".toList) :=
  have hbreaks : ∀ c ∈ ("\\\"#\x7bx\x7d\\" : String).toList, c ∉ Target.ruby.lineBreaks := by
    decide +kernel
  ⟨hbreaks, by decide, Target.ruby.readLiteral?_text_string none ⟨0, 0⟩ hbreaks (by decide)⟩

/-- In VBA the two quotes of a doubled one stay together, also at the end. -/
example : (Target.vba.dialect.stringLiteral "a\"").toList = "\"a\"\"\"".toList ∧
    Target.vba.readLiteral? "\"a\"\"\"".toList = some ("a\"", []) := by
  decide +kernel

end BlockCode
