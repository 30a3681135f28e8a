/- # How printed lines start

A comment is told by how its line starts, and so is a line that closes a block with a brace. A line
that starts with a name of the program starts with a word, and neither mark is in one. In Ruby a
line can start with an expression as well, and none is printed with the mark of a comment in front.
-/

import Mathlib.Data.List.Infix
import BlockCode.Proofs.Names.HeadWords

namespace BlockCode

/-- The text starts with the other one. -/
def StartsWith (front text : String) : Prop :=
  front.toList <+: text.toList

instance (front text : String) : Decidable (StartsWith front text) :=
  inferInstanceAs (Decidable (_ <+: _))

/-- The first character of the text is the mark. -/
def StartsIn (mark : Char) (text : String) : Prop :=
  text.toList.head? = some mark

instance (mark : Char) (text : String) : Decidable (StartsIn mark text) :=
  inferInstanceAs (Decidable (_ = _))

section

variable {mark : Char} {front text more : String}

theorem startsWith_append {word : String} (h : word.toList.length ≤ front.toList.length) :
    StartsWith word (front ++ more) ↔ StartsWith word front := by
  rw [StartsWith, String.toList_append]
  exact List.isPrefix_append_of_length h

theorem StartsWith.append {word : String} (h : StartsWith word front) :
    StartsWith word (front ++ more) := by
  rw [StartsWith, String.toList_append]
  exact h.trans (List.prefix_append _ _)

/-- A text that starts with a word starts with no other character than white space. -/
theorem not_startsWith_of_headWord (h : headWord text ≠ "") {word : String}
    (hword : ∀ c ∈ word.toList.head?, isBlank c = false ∧ isWordPart c = false)
    (hne : word.toList ≠ []) : ¬ StartsWith word text := by
  obtain ⟨blanks, htext, hblanks, hparts, -⟩ := exists_eq_headWord text
  obtain ⟨c, rest, hcons⟩ := List.exists_cons_of_ne_nil hne
  obtain ⟨hblank, hpart⟩ := hword c (by rw [hcons]; rfl)
  rintro ⟨behind, heq⟩
  rw [hcons, htext] at heq
  cases blanks with
  | nil =>
      obtain ⟨d, word, hhead⟩ := List.exists_cons_of_ne_nil (toList_headWord_ne_nil h)
      rw [hhead] at heq hparts
      obtain ⟨rfl, -⟩ := List.cons.inj heq
      rw [hparts _ (.head _)] at hpart
      cases hpart
  | cons d blanks =>
      obtain ⟨rfl, -⟩ := List.cons.inj heq
      rw [hblanks _ (.head _)] at hblank
      cases hblank

theorem not_startsIn_append (h : ¬ StartsIn mark text) (h' : ¬ StartsIn mark more) :
    ¬ StartsIn mark (text ++ more) := by
  rw [StartsIn, String.toList_append, List.head?_append, Option.or_eq_some_iff]
  rintro (hhead | ⟨-, hhead⟩)
  · exact h hhead
  · exact h' hhead

/-- A fixed text with another character in front. -/
theorem not_startsIn_of_front {front : String}
    (h : front.toList.head?.any (fun c => c != mark) = true) (more : String) :
    ¬ StartsIn mark (front ++ more) := by
  rw [Option.any_eq_true] at h
  obtain ⟨c, hc, hne⟩ := h
  rw [StartsIn, String.toList_append, List.head?_append, hc]
  rintro ⟨⟩
  simp at hne

theorem StartsFree.not_startsIn (h : StartsFree text) (hblank : isBlank mark = false)
    (hpart : isWordPart mark = false) : ¬ StartsIn mark text := by
  intro hhead
  have hword : ∀ c ∈ (String.singleton mark).toList.head?, isBlank c = false ∧
      isWordPart c = false := by
    rw [String.toList_singleton]
    rintro _ ⟨⟩
    exact ⟨hblank, hpart⟩
  refine not_startsWith_of_headWord h.word hword (by simp) ?_
  obtain ⟨rest, hrest⟩ := List.head?_eq_some_iff.mp hhead
  rw [StartsWith, hrest, String.toList_singleton]
  exact ⟨rest, rfl⟩

end

namespace Ruby

section Print

variable {x : Printed} {level : Precedence} {spellings? : Option Spellings}

theorem not_startsIn_parenthesized (x : Printed) : ¬ StartsIn '#' x.parenthesized := by
  rw [Printed.parenthesized, String.append_assoc]
  exact not_startsIn_of_front (by decide) _

theorem not_startsIn_atLeast (h : ¬ StartsIn '#' x.text) : ¬ StartsIn '#' (x.atLeast level) := by
  rw [Printed.atLeast]
  split
  · exact h
  · exact not_startsIn_parenthesized x

theorem not_startsIn_tighterThan (h : ¬ StartsIn '#' x.text) :
    ¬ StartsIn '#' (x.tighterThan level) := by
  rw [Printed.tighterThan]
  split
  · exact h
  · exact not_startsIn_parenthesized x

theorem not_startsIn_builtin (function : Builtin) {args : List Printed}
    (hargs : ∀ x ∈ args, ¬ StartsIn '#' x.text) :
    ¬ StartsIn '#' ((Target.ruby.printer spellings?).builtin function args).text := by
  have hname : function.name.toList.head?.any (fun c => c != '#') = true := by
    cases function <;> decide
  unfold ExprPrinter.builtin
  split
  · simp only [Printed.primary, String.append_assoc]
    exact not_startsIn_of_front (by decide) _
  · simp only [Printed.primary, String.append_assoc]
    exact not_startsIn_of_front (by decide) _
  · change ¬ StartsIn '#' ("rand(" ++ _ ++ ".." ++ _ ++ ")")
    simp only [String.append_assoc]
    exact not_startsIn_of_front (by decide) _
  · simp only [String.append_assoc]
    exact not_startsIn_append (not_startsIn_atLeast (hargs _ (.head _)))
      (not_startsIn_of_front (by decide) _)
  · exact not_startsIn_append (not_startsIn_atLeast (hargs _ (.head _)))
      (by decide : ¬ StartsIn '#' ".to_s(2)")
  · simp only [Printed.primary, String.append_assoc]
    exact not_startsIn_of_front hname _

theorem not_startsIn_binary (op : BinaryOp) {left : Printed} (h : ¬ StartsIn '#' left.text)
    (right : Printed) :
    ¬ StartsIn '#' ((Target.ruby.printer spellings?).binary op left right).text := by
  have hleft : ¬ StartsIn '#' (if op == .power || op.isComparison
      then left.tighterThan op.precedence else left.atLeast op.precedence) := by
    split
    · exact not_startsIn_tighterThan h
    · exact not_startsIn_atLeast h
  unfold ExprPrinter.binary
  dsimp only
  split
  · next before behind hfloor =>
    cases hfloor
    simp only [Printed.primary, String.append_assoc]
    exact not_startsIn_of_front (by decide) _
  · simp only [String.append_assoc]
    exact not_startsIn_append hleft (not_startsIn_of_front (by decide) _)

theorem not_startsIn_name
    (hspellings : ∀ spellings ∈ spellings?, ∀ entry ∈ spellings, StartsFree entry.2)
    {word : String} (hword : IsLexeme .name word) :
    ¬ StartsIn '#' ((Target.ruby.printer spellings?).name word) := by
  have hsegments : ∀ segment ∈ (Target.ruby.printer spellings?).segments word,
      ¬ StartsIn '#' segment := by
    refine ExprPrinter.forall_mem_segments (P := fun text => ¬ StartsIn '#' text) _
      (fun spellings hmem entry hentry =>
        (hspellings spellings hmem entry hentry).not_startsIn (by decide) (by decide)) ?_
    exact fun segment hsegment hhead => hword.notMem_of_isExprEnd (.inr rfl) (by decide)
      (mem_of_mem_nameSegments hsegment (List.mem_of_mem_head? hhead))
  rw [ExprPrinter.name_eq_intercalate]
  cases hcases : (Target.ruby.printer spellings?).segments word with
  | nil => decide
  | cons first others =>
      rw [hcases] at hsegments
      have hfirst := hsegments first (.head _)
      cases others with
      | nil => simpa using hfirst
      | cons next others =>
          rw [String.intercalate_cons_cons, String.append_assoc]
          exact not_startsIn_append hfirst (not_startsIn_of_front (by decide) _)

mutual

/-- The text of an expression does not start as a comment does. -/
theorem not_startsIn_print
    (hspellings : ∀ spellings ∈ spellings?, ∀ entry ∈ spellings, StartsFree entry.2) :
    ∀ e : Expr, (∀ part ∈ e.parts, part.OwnLegible) →
      ¬ StartsIn '#' ((Target.ruby.printer spellings?).print e).text
  | .number _ text, h => fun hhead =>
      have htext : IsLexeme .number text := h _ (.head _)
      htext.notMem_of_isExprEnd (.inl rfl) (by decide) (List.mem_of_mem_head? hhead)
  | .string _ contents, _ => by
      rw [ExprPrinter.print, Printed.primary, StartsIn, Dialect.stringLiteral,
        String.toList_ofList]
      rintro ⟨⟩
  | .bool _ value, _ => by
      rw [ExprPrinter.print]
      cases value with
      | false => exact (by decide : ¬ StartsIn '#' "false")
      | true => exact (by decide : ¬ StartsIn '#' "true")
  | .name _ word, h => not_startsIn_name hspellings (h _ (.head _))
  | .index _ base position, h => by
      rw [Expr.parts, List.forall_mem_cons, List.forall_mem_append] at h
      rw [ExprPrinter.print]
      simp only [Printed.primary, String.append_assoc]
      exact not_startsIn_append (not_startsIn_atLeast (not_startsIn_print hspellings base h.2.1))
        (not_startsIn_of_front (by decide : "[".toList.head?.any (fun c => c != '#') = true) _)
  | .call _ word args _, h => by
      have hword : IsLexeme .name word := (h _ (.head _)).1
      rw [ExprPrinter.print]
      simp only [Printed.primary, String.append_assoc]
      exact not_startsIn_append (not_startsIn_name hspellings hword)
        (not_startsIn_of_front (by decide) _)
  | .builtin _ function args, h => by
      rw [Expr.parts, List.forall_mem_cons] at h
      rw [ExprPrinter.print]
      exact not_startsIn_builtin function (not_startsIn_printAll hspellings args h.2)
  | .unary _ op operand, _ => by
      rw [ExprPrinter.print]
      cases op with
      | negate => exact not_startsIn_of_front (by decide : "-".toList.head?.any _ = true) _
      | not => exact not_startsIn_of_front (by decide : "!".toList.head?.any _ = true) _
  | .binary _ op left right, h => by
      rw [Expr.parts, List.forall_mem_cons, List.forall_mem_append] at h
      rw [ExprPrinter.print]
      exact not_startsIn_binary op (not_startsIn_print hspellings left h.2.1) _
  | .group _ inner, _ => not_startsIn_parenthesized _

theorem not_startsIn_printAll
    (hspellings : ∀ spellings ∈ spellings?, ∀ entry ∈ spellings, StartsFree entry.2) :
    ∀ args : List Expr, (∀ part ∈ Expr.partsOfAll args, part.OwnLegible) →
      ∀ x ∈ (Target.ruby.printer spellings?).printAll args, ¬ StartsIn '#' x.text
  | [], _ => by simp [ExprPrinter.printAll]
  | e :: args, h => by
      rw [Expr.partsOfAll, List.forall_mem_append] at h
      rw [ExprPrinter.printAll, List.forall_mem_cons]
      exact ⟨not_startsIn_print hspellings e h.1, not_startsIn_printAll hspellings args h.2⟩

end

end Print

end Ruby

end BlockCode
