/- # Numerals of printed expressions

The text of an expression shows the numerals of its number literals, as they are and each as often
as the expression has it. Templates add numerals of their own, and some print an argument twice.

A text is put together from pieces, and what its pieces show it shows too, as long as no word or
numeral goes on from one piece to the next and no string literal is left open. So a piece that comes
in front has to lead to a place between tokens, and one that comes behind has to start apart.
-/

import BlockCode.Proofs.Target.AsciiNames
import BlockCode.Proofs.Target.Numerals

namespace BlockCode

/-- The numeral that the expression itself is. -/
def Expr.ownNumeral? : Expr → Option (List Char)
  | .number _ text => some text.toList
  | _ => none

/-- The numerals of the number literals in an expression. -/
def Expr.numerals (e : Expr) : List (List Char) :=
  e.parts.filterMap Expr.ownNumeral?

theorem Expr.filterMap_partsOfAll (args : List Expr) :
    (partsOfAll args).filterMap ownNumeral? = args.flatMap numerals := by
  induction args with
  | nil => rfl
  | cons e args ih => rw [partsOfAll, List.filterMap_append, ih, List.flatMap_cons, numerals]

theorem CodeState.isOutside_next {escapes : Bool} {state : CodeState} {c : Char}
    (h : state.isOutside = true) (hc : c ≠ '"') : (state.next escapes c).isOutside = true := by
  have hstart : (CodeState.start c).isOutside = true := by
    rw [CodeState.start, if_neg (by simpa using hc)]
    split
    · rfl
    · split <;> rfl
  cases state with
  | between => exact hstart
  | word | whole | point | fraction =>
      unfold CodeState.next
      dsimp only
      repeat' split
      all_goals first | rfl | exact hstart
  | quoted | escaped => cases h

theorem CodeState.isOutside_after {escapes : Bool} {state : CodeState} {text : List Char}
    (h : state.isOutside = true) (htext : '"' ∉ text) :
    (state.after escapes text).isOutside = true := by
  induction text generalizing state with
  | nil => exact h
  | cons c text ih =>
      rw [List.mem_cons, not_or] at htext
      exact ih (isOutside_next h (Ne.symm htext.1)) htext.2

/-! ## Pieces of a text -/

/-- The text shows the numerals, and leaves no string literal open. -/
structure Shows (escapes : Bool) (text : String) (numerals : List (List Char)) : Prop where
  isOutside : (CodeState.between.after escapes text.toList).isOutside = true
  subperm : numerals.Subperm (numeralsFrom escapes .between text.toList)

/-- The text shows the numerals, and ends between tokens. -/
structure Leads (escapes : Bool) (text : String) (numerals : List (List Char)) : Prop where
  after_eq : CodeState.between.after escapes text.toList = .between
  subperm : numerals.Subperm (numeralsFrom escapes .between text.toList)

/-- The text ends between tokens, whatever string literals look like. -/
def Opens (text : String) : Prop :=
  ∀ escapes, CodeState.between.after escapes text.toList = .between

/-- Besides, it ends the token in front of it. -/
def Joins (text : String) : Prop :=
  text ≠ "" ∧ StartsApart text.toList ∧ Opens text

/-- The text ends the token in front of it, and leaves no string literal open. -/
def Closes (text : String) : Prop :=
  StartsApart text.toList ∧
    ∀ escapes, (CodeState.between.after escapes text.toList).isOutside = true

instance (text : String) : Decidable (Opens text) :=
  inferInstanceAs (Decidable (∀ escapes, CodeState.between.after escapes text.toList = .between))

instance (text : String) : Decidable (Joins text) :=
  inferInstanceAs (Decidable (_ ∧ _))

instance (text : String) : Decidable (Closes text) :=
  inferInstanceAs (Decidable (_ ∧ _))

section Pieces

variable {escapes : Bool} {text text' : String} {numerals numerals' : List (List Char)}

theorem Opens.leads (h : Opens text) : Leads escapes text [] :=
  ⟨h escapes, List.nil_subperm⟩

namespace Leads

theorem shows (h : Leads escapes text numerals) : Shows escapes text numerals :=
  ⟨by rw [h.after_eq]; rfl, h.subperm⟩

theorem append (h : Leads escapes text numerals) (h' : Shows escapes text' numerals') :
    Shows escapes (text ++ text') (numerals ++ numerals') := by
  constructor
  · rw [String.toList_append, CodeState.after_append, h.after_eq]
    exact h'.isOutside
  · rw [String.toList_append, numeralsFrom_append_of_between h.after_eq]
    exact h.subperm.append h'.subperm

theorem append_leads (h : Leads escapes text numerals) (h' : Leads escapes text' numerals') :
    Leads escapes (text ++ text') (numerals ++ numerals') := by
  refine ⟨?_, (h.append h'.shows).subperm⟩
  rw [String.toList_append, CodeState.after_append, h.after_eq]
  exact h'.after_eq

end Leads

namespace Shows

theorem mono (h : Shows escapes text numerals) (hsub : numerals'.Subperm numerals) :
    Shows escapes text numerals' :=
  ⟨h.isOutside, hsub.trans h.subperm⟩

theorem subperm_append (h : Shows escapes text numerals) (happart : StartsApart text'.toList) :
    numerals.Subperm (numeralsFrom escapes .between (text ++ text').toList) := by
  rw [String.toList_append, numeralsFrom_append_of_startsApart h.isOutside happart]
  exact h.subperm.trans (List.sublist_append_left _ _).subperm

/-- A piece that ends the token in front of it and adds nothing to it. -/
theorem leads (h : Shows escapes text numerals) (hjoins : Joins text') :
    Leads escapes (text ++ text') numerals := by
  obtain ⟨hne, happart, hopens⟩ := hjoins
  refine ⟨?_, h.subperm_append happart⟩
  rw [String.toList_append, CodeState.after_append]
  cases hchars : text'.toList with
  | nil => exact absurd (String.toList_eq_nil_iff.mp hchars) hne
  | cons c rest =>
      rw [hchars] at happart
      rw [(after_of_startsApart h.isOutside happart).1, ← hchars]
      exact hopens escapes

theorem close (h : Shows escapes text numerals) (hcloses : Closes text') :
    Shows escapes (text ++ text') numerals := by
  obtain ⟨happart, hout⟩ := hcloses
  refine ⟨?_, h.subperm_append happart⟩
  rw [String.toList_append, CodeState.after_append]
  cases hchars : text'.toList with
  | nil => exact h.isOutside
  | cons c rest =>
      rw [hchars] at happart
      rw [(after_of_startsApart h.isOutside happart).1, ← hchars]
      exact hout escapes

/-- A text without quotes opens no string literal. -/
theorem of_quoteless (h : '"' ∉ text.toList) : Shows escapes text [] :=
  ⟨CodeState.isOutside_after rfl h, List.nil_subperm⟩

theorem intercalate {separator : String} (hseparator : Joins separator) {α : Type} {items : List α}
    {text : α → String} {numerals : α → List (List Char)}
    (h : ∀ a ∈ items, Shows escapes (text a) (numerals a)) :
    Shows escapes (separator.intercalate (items.map text)) (items.flatMap numerals) := by
  induction items with
  | nil => exact @of_quoteless _ "" List.not_mem_nil
  | cons a items ih =>
      rw [List.forall_mem_cons] at h
      cases items with
      | nil =>
          rw [List.map_singleton, String.intercalate_singleton, List.flatMap_singleton]
          exact h.1
      | cons next items =>
          rw [List.map_cons, List.map_cons, String.intercalate_cons_cons, List.flatMap_cons]
          exact (h.1.leads hseparator).append (ih h.2)

end Shows

end Pieces

/-! ## Literals -/

section Literals

variable {escapes : Bool}

/-- Digits go on with digits, in front of the point and behind it. -/
theorem after_digits {behind : List Char → CodeState}
    (hbehind : behind = .whole ∨ behind = .fraction) {numeral digits : List Char}
    (h : ∀ d ∈ digits, isAsciiDigit d = true) :
    (behind numeral).after escapes digits = behind (numeral ++ digits) ∧
      ∀ rest, numeralsFrom escapes (behind numeral) (digits ++ rest) =
        numeralsFrom escapes (behind (numeral ++ digits)) rest := by
  induction digits generalizing numeral with
  | nil => simp [CodeState.after]
  | cons d digits ih =>
      rw [List.forall_mem_cons] at h
      have hword := continuesWord_of_isAsciiDigit h.1
      have hnext : (behind numeral).next escapes d = behind (numeral ++ [d]) ∧
          (behind numeral).ended d = [] := by
        rcases hbehind with rfl | rfl
        · simp [CodeState.next, CodeState.ended, h.1, hword]
        · simp [CodeState.next, CodeState.ended, h.1, hword]
      have hrest := @ih (numeral ++ [d]) h.2
      rw [List.append_assoc, List.singleton_append] at hrest
      refine ⟨?_, fun rest => ?_⟩
      · rw [← hrest.1, ← hnext.1]
        rfl
      · rw [List.cons_append, numeralsFrom, hnext.1, hnext.2, List.nil_append, hrest.2]

/-- The digits in front are one numeral. -/
theorem after_numeral {c : Char} {digits : List Char} (h : ∀ d ∈ c :: digits, isAsciiDigit d = true)
    (rest : List Char) :
    CodeState.between.after escapes (c :: digits ++ rest) =
        (CodeState.whole (c :: digits)).after escapes rest ∧
      numeralsFrom escapes .between (c :: digits ++ rest) =
        numeralsFrom escapes (.whole (c :: digits)) rest := by
  rw [List.forall_mem_cons] at h
  have hquote : c ≠ '"' := by
    rintro rfl
    exact absurd h.1 (by decide)
  have hnext : CodeState.between.next escapes c = .whole [c] := by
    simp [CodeState.next, CodeState.start, hquote, h.1]
  obtain ⟨hafter, hnumerals⟩ := @after_digits escapes .whole (.inl rfl) [c] digits h.2
  constructor
  · rw [CodeState.after_append]
    refine congrArg (CodeState.after escapes · rest) ?_
    rw [← List.singleton_append, ← hafter, ← hnext]
    rfl
  · rw [List.cons_append, numeralsFrom, hnext, hnumerals]
    rfl

/-- Digits show themselves. -/
theorem Shows.digits {digits : List Char} (hne : digits ≠ [])
    (h : ∀ d ∈ digits, isAsciiDigit d = true) : Shows escapes (String.ofList digits) [digits] := by
  obtain ⟨c, digits, rfl⟩ := List.exists_cons_of_ne_nil hne
  obtain ⟨hafter, hnumerals⟩ := @after_numeral escapes c digits h []
  rw [List.append_nil] at hafter hnumerals
  refine ⟨by rw [String.toList_ofList, hafter]; rfl, ?_⟩
  rw [String.toList_ofList, hnumerals]
  exact List.Subperm.refl _

/-- A number literal shows itself. -/
theorem Shows.number {text : String} (h : IsLexeme .number text) :
    Shows escapes text [text.toList] := by
  obtain ⟨c, digits, hdigits, htext | ⟨e, fraction, hfraction, htext⟩⟩ := h.exists_digits
  · have hshown := @Shows.digits escapes _ (List.cons_ne_nil c digits) hdigits
    rwa [← htext, String.ofList_toList] at hshown
  · rw [List.forall_mem_cons] at hfraction
    obtain ⟨hafter, hnumerals⟩ := @after_numeral escapes c digits hdigits ('.' :: e :: fraction)
    obtain ⟨hafter', hnumerals'⟩ :=
      @after_digits escapes .fraction (.inr rfl) (c :: digits ++ ['.', e]) fraction hfraction.2
    have hword : continuesWord '.' = false ∧ isAsciiDigit '.' = false := by decide
    have hfront : (CodeState.whole (c :: digits)).after escapes ('.' :: e :: fraction) =
          (CodeState.fraction (c :: digits ++ ['.', e])).after escapes fraction ∧
        numeralsFrom escapes (.whole (c :: digits)) ('.' :: e :: fraction) =
          numeralsFrom escapes (.fraction (c :: digits ++ ['.', e])) (fraction ++ []) := by
      simp [CodeState.after, numeralsFrom, CodeState.next, CodeState.ended, hword, hfraction.1]
    have hwhole : c :: digits ++ ['.', e] ++ fraction = text.toList := by
      rw [htext]
      simp
    rw [hfront.1, hafter', hwhole, ← htext] at hafter
    rw [hfront.2, hnumerals', hwhole, ← htext] at hnumerals
    refine ⟨by rw [hafter]; rfl, ?_⟩
    rw [hnumerals]
    exact List.Subperm.refl _

/-- A character that is quoted stays in its string literal. -/
theorem after_quotedChar (target : Target) (c : Char) :
    CodeState.quoted.after target.escapes (target.dialect.quotedChar c) = .quoted := by
  have hplain {escapes : Bool} (hquote : c ≠ '"') (hslash : c = '\\' → escapes = false) :
      CodeState.quoted.after escapes [c] = .quoted := by
    simp only [CodeState.after, List.foldl_cons, List.foldl_nil, CodeState.next, beq_iff_eq,
      if_neg hquote, Bool.and_eq_true]
    refine if_neg ?_
    rintro ⟨hescapes, hc⟩
    rw [hslash hc] at hescapes
    cases hescapes
  have hbackslash : CodeState.quoted.after true (Dialect.backslashQuoted c) = .quoted := by
    rw [Dialect.backslashQuoted]
    split
    · rfl
    · next hspecial =>
      rw [Bool.or_eq_true, beq_iff_eq, beq_iff_eq, not_or] at hspecial
      exact hplain hspecial.2 fun hslash => absurd hslash hspecial.1
  cases target with
  | javaScript | python => exact hbackslash
  | ruby =>
      change CodeState.quoted.after true
        (if c == '#' then ['\\', c] else Dialect.backslashQuoted c) = .quoted
      split
      · rfl
      · exact hbackslash
  | vba =>
      change CodeState.quoted.after false (if c == '"' then ['"', '"'] else [c]) = .quoted
      split
      · rfl
      · next hquote => exact hplain (by simpa using hquote) fun _ => rfl

/-- A string literal is closed. -/
theorem leads_stringLiteral (target : Target) (contents : String) :
    Leads target.escapes (target.dialect.stringLiteral contents) [] := by
  have hcontents (chars : List Char) :
      CodeState.quoted.after target.escapes (chars.flatMap target.dialect.quotedChar) =
        .quoted := by
    induction chars with
    | nil => rfl
    | cons c chars ih => rw [List.flatMap_cons, CodeState.after_append,
      after_quotedChar, ih]
  refine ⟨?_, List.nil_subperm⟩
  rw [Dialect.stringLiteral, String.toList_ofList, CodeState.after_append]
  change (CodeState.quoted.after _ (contents.toList.flatMap _)).after _ _ = _
  rw [hcontents]
  rfl

end Literals

/-! ## Operations -/

section Operations

variable {target : Target} {x y : Printed} {n m : List (List Char)} {level : Precedence}

namespace Shows

variable {escapes : Bool}

theorem parenthesized (h : Shows escapes x.text n) : Shows escapes x.parenthesized n :=
  ((by decide : Opens "(").leads.append h).close (by decide)

theorem atLeast (h : Shows escapes x.text n) : Shows escapes (x.atLeast level) n := by
  rw [Printed.atLeast]
  split
  · exact h
  · exact h.parenthesized

theorem tighterThan (h : Shows escapes x.text n) : Shows escapes (x.tighterThan level) n := by
  rw [Printed.tighterThan]
  split
  · exact h
  · exact h.parenthesized

theorem commaList {α : Type} {items : List α} {text : α → String}
    {numerals : α → List (List Char)} (h : ∀ a ∈ items, Shows escapes (text a) (numerals a)) :
    Shows escapes (commaList (items.map text)) (items.flatMap numerals) :=
  intercalate (by decide) h

/-- The number of integers between two bounds. -/
theorem rangeSize (hx : Shows escapes x.text n) (hy : Shows escapes y.text m) :
    Shows escapes (Dialect.rangeSize x y) (m ++ n) :=
  ((hy.atLeast.leads (by decide)).append hx.tighterThan).close (by decide)

/-- A random integer that is shifted prints the smaller bound twice. -/
theorem shiftedRandom {before behind : String} (hbefore : Opens before) (hbehind : Closes behind)
    (hx : Shows escapes x.text n) (hy : Shows escapes y.text m) :
    Shows escapes
      (Dialect.shiftedRandom (fun size => before ++ size ++ behind) x y).text (n ++ m) := by
  have hshown : Shows escapes
      (Dialect.shiftedRandom (fun size => before ++ size ++ behind) x y).text
      ([] ++ (m ++ n) ++ n) :=
    (((hbefore.leads.append (hx.rangeSize hy)).close hbehind).leads (by decide)).append
      hx.tighterThan
  refine hshown.mono ?_
  rw [List.nil_append]
  exact List.perm_append_comm.subperm.trans (List.sublist_append_left _ _).subperm

end Shows

theorem shows_random (hx : Shows target.escapes x.text n) (hy : Shows target.escapes y.text m) :
    Shows target.escapes (target.dialect.random x y).text (n ++ m) := by
  cases target with
  | javaScript | vba => exact .shiftedRandom (by decide) (by decide) hx hy
  | python =>
      exact ((((by decide : Opens "random.randint(").leads.append hx).leads (by decide)).append
        hy).close (by decide)
  | ruby =>
      exact ((((by decide : Opens "rand(").leads.append hx).leads (by decide)).append hy).close
        (by decide)

theorem shows_binaryDigits (hx : Shows target.escapes x.text n) :
    Shows target.escapes (target.dialect.binaryDigits x).text n := by
  cases target with
  | javaScript | python | vba => exact ((by decide : Opens _).leads.append hx).close (by decide)
  | ruby => exact hx.atLeast.close (by decide)

theorem shows_symbol (op : BinaryOp) : Shows target.escapes (target.dialect.symbol op) [] := by
  refine .of_quoteless ?_
  cases target <;> cases op <;> decide

theorem shows_unary {spellings? : Option Spellings} (op : UnaryOp)
    (hx : Shows target.escapes x.text n) :
    Shows target.escapes ((target.printer spellings?).unary op x).text n := by
  cases op with
  | negate => exact (by decide : Opens "-").leads.append hx.tighterThan
  | not =>
      have hnot : Opens target.dialect.not := by cases target <;> decide
      refine hnot.leads.append ?_
      split
      · exact hx.tighterThan
      · exact hx.atLeast

theorem shows_binary {spellings? : Option Spellings} (op : BinaryOp)
    (hx : Shows target.escapes x.text n) (hy : Shows target.escapes y.text m) :
    Shows target.escapes ((target.printer spellings?).binary op x y).text (n ++ m) := by
  have hfit {z : Printed} {k : List (List Char)} (h : Shows target.escapes z.text k)
      (tight : Bool) :
      Shows target.escapes
        (if tight then z.tighterThan op.precedence else z.atLeast op.precedence) k := by
    cases tight
    · exact h.atLeast
    · exact h.tighterThan
  have hright : Shows target.escapes
      (if op == .power then y.atLeast op.precedence else y.tighterThan op.precedence) m := by
    split
    · exact hy.atLeast
    · exact hy.tighterThan
  have htext := ((((hfit hx (op == .power || op.isComparison)).leads (by decide : Joins " ")).append
    (shows_symbol op)).leads (by decide : Joins " ")).append hright
  rw [List.append_nil] at htext
  have hrounded : ∀ before behind, target.dialect.floorDivision = .rounded before behind →
      Opens before ∧ Closes behind := by
    cases target <;> rintro before behind ⟨⟩ <;> decide
  unfold ExprPrinter.binary
  dsimp only
  split
  · next before behind hdivision =>
    obtain ⟨hbefore, hbehind⟩ := hrounded before behind hdivision
    exact (hbefore.leads.append htext).close hbehind
  · exact htext

theorem shows_square (hx : Shows target.escapes x.text n) :
    Shows target.escapes ("(" ++ x.atom ++ " * " ++ x.atom ++ ")") n := by
  have hshown : Shows target.escapes ("(" ++ x.atom ++ " * " ++ x.atom ++ ")") ([] ++ n ++ n) :=
    ((((by decide : Opens "(").leads.append hx.atLeast).leads (by decide)).append
      hx.atLeast).close (by decide)
  exact hshown.mono (List.sublist_append_right _ _).subperm

theorem shows_power (hx : Shows target.escapes x.text n) (hy : Shows target.escapes y.text m) :
    Shows target.escapes ("(" ++ x.atom ++ " " ++ target.dialect.power ++ " " ++ y.atom ++ ")")
      (n ++ m) := by
  have hpower : '"' ∉ target.dialect.power.toList := by cases target <;> decide
  have hshown : Shows target.escapes
      ("(" ++ x.atom ++ " " ++ target.dialect.power ++ " " ++ y.atom ++ ")")
      ([] ++ n ++ [] ++ m) :=
    ((((((by decide : Opens "(").leads.append hx.atLeast).leads (by decide)).append
      (.of_quoteless hpower)).leads (by decide)).append hy.atLeast).close (by decide)
  rwa [List.nil_append, List.append_nil] at hshown

theorem shows_odd (hx : Shows target.escapes x.text n) :
    Shows target.escapes (x.atLeast .multiplicative ++ " " ++ target.dialect.modulo ++ " 2 " ++
      target.dialect.notEqual ++ " 0") n := by
  have hmodulo : '"' ∉ target.dialect.modulo.toList := by cases target <;> decide
  have hnotEqual : '"' ∉ target.dialect.notEqual.toList := by cases target <;> decide
  have hshown : Shows target.escapes (x.atLeast .multiplicative ++ " " ++ target.dialect.modulo ++
      " 2 " ++ target.dialect.notEqual ++ " 0") (n ++ [] ++ []) :=
    ((((hx.atLeast.leads (by decide)).append (.of_quoteless hmodulo)).leads (by decide)).append
      (.of_quoteless hnotEqual)).close (by decide)
  rwa [List.append_nil, List.append_nil] at hshown

theorem shows_builtin {spellings? : Option Spellings} (function : Builtin) {args : List Expr}
    (h : ∀ e ∈ args,
      Shows target.escapes ((target.printer spellings?).text e) e.numerals) :
    Shows target.escapes
      ((target.printer spellings?).builtin function
        (args.map (target.printer spellings?).print)).text
      (args.flatMap Expr.numerals) := by
  have hname : '"' ∉ function.name.toList := by cases function <;> decide
  have single {x : Printed} (heq : args.map (target.printer spellings?).print = [x]) :
      Shows target.escapes x.text (args.flatMap Expr.numerals) := by
    obtain ⟨e, rfl, rfl⟩ := List.map_eq_singleton_iff.mp heq
    rw [List.flatMap_singleton]
    exact h e (.head _)
  have pair {x y : Printed} (heq : args.map (target.printer spellings?).print = [x, y]) :
      ∃ n m, args.flatMap Expr.numerals = n ++ m ∧ Shows target.escapes x.text n ∧
        Shows target.escapes y.text m := by
    obtain ⟨e, rest, rfl, rfl, hrest⟩ := List.map_eq_cons_iff.mp heq
    obtain ⟨e', rfl, rfl⟩ := List.map_eq_singleton_iff.mp hrest
    refine ⟨e.numerals, e'.numerals, ?_, h e (.head _), h e' (.tail _ (.head _))⟩
    rw [List.flatMap_cons, List.flatMap_singleton]
  unfold ExprPrinter.builtin
  split
  · next x heq => exact shows_square (single heq)
  · next x y heq =>
    obtain ⟨n, m, hnumerals, hx, hy⟩ := pair heq
    rw [hnumerals]
    exact shows_power hx hy
  · next x y heq =>
    obtain ⟨n, m, hnumerals, hx, hy⟩ := pair heq
    rw [hnumerals]
    exact shows_random hx hy
  · next x heq => exact shows_odd (single heq)
  · next x heq => exact shows_binaryDigits (single heq)
  · rw [List.map_map]
    exact (((Shows.of_quoteless hname).leads (by decide)).append (.commaList h)).close (by decide)

end Operations

/-! ## Expressions -/

theorem ExprPrinter.printAll_eq_map (p : ExprPrinter) (args : List Expr) :
    p.printAll args = args.map p.print := by
  induction args with
  | nil => rw [printAll, List.map_nil]
  | cons e args ih => rw [printAll, ih, List.map_cons]

theorem notMem_intercalate {c : Char} {separator : String} (hseparator : c ∉ separator.toList)
    {texts : List String} (h : ∀ text ∈ texts, c ∉ text.toList) :
    c ∉ (separator.intercalate texts).toList := by
  induction texts with
  | nil => exact List.not_mem_nil
  | cons text texts ih =>
      rw [List.forall_mem_cons] at h
      cases texts with
      | nil =>
          rw [String.intercalate_singleton]
          exact h.1
      | cons next texts =>
          rw [String.intercalate_cons_cons, String.toList_append, String.toList_append]
          simp only [List.mem_append, not_or]
          exact ⟨⟨h.1, hseparator⟩, ih h.2⟩

section Printing

variable {target : Target} {spellings? : Option Spellings}

/-- A name is printed without quotes. -/
theorem quote_notMem_name (hspellings : ∀ spellings ∈ spellings?, spellings.Ascii)
    {word : String} (hword : '"' ∉ word.toList) :
    '"' ∉ ((target.printer spellings?).name word).toList := by
  rw [ExprPrinter.name_eq_intercalate]
  refine notMem_intercalate (by decide) ?_
  apply ExprPrinter.forall_mem_segments (P := fun text => '"' ∉ text.toList)
  · intro spellings hmem entry hentry hquote
    exact absurd (hspellings spellings hmem entry hentry _ hquote) (by decide)
  · intro segment hsegment hquote
    exact hword (mem_of_mem_nameSegments hsegment hquote)

theorem shows_name (hspellings : ∀ spellings ∈ spellings?, spellings.Ascii) {word : String}
    (h : IsLexeme .name word) :
    Shows target.escapes ((target.printer spellings?).name word) [] :=
  .of_quoteless (quote_notMem_name hspellings fun hquote =>
    absurd (h.isWordChar_of_mem _ hquote) (by decide))

mutual

/-- The text of an expression shows the numerals of its number literals. -/
theorem shows_print (hspellings : ∀ spellings ∈ spellings?, spellings.Ascii) : ∀ e : Expr,
    (∀ part ∈ e.parts, part.OwnLegible) →
      Shows target.escapes ((target.printer spellings?).print e).text e.numerals
  | .number _ text, h => .number (h _ (.head _))
  | .string _ contents, _ => (leads_stringLiteral target contents).shows
  | .bool _ value, _ => by
      have hword : '"' ∉
          (if value then target.dialect.trueWord else target.dialect.falseWord).toList := by
        cases target <;> cases value <;> decide
      exact .of_quoteless hword
  | .name _ word, h => shows_name hspellings (h _ (.head _))
  | .index _ base position, h => by
      rw [Expr.parts, List.forall_mem_cons, List.forall_mem_append] at h
      have hopen : Joins target.dialect.openIndex := by cases target <;> decide
      have hclose : Closes target.dialect.closeIndex := by cases target <;> decide
      rw [ExprPrinter.print, Expr.numerals, Expr.parts, List.filterMap_cons_none rfl,
        List.filterMap_append]
      exact (((shows_print hspellings base h.2.1).atLeast.leads hopen).append
        (shows_print hspellings position h.2.2)).close hclose
  | .call _ word args _, h => by
      rw [Expr.parts, List.forall_mem_cons] at h
      rw [ExprPrinter.print, Expr.numerals, Expr.parts, List.filterMap_cons_none rfl,
        Expr.filterMap_partsOfAll, ExprPrinter.printAll_eq_map, List.map_map]
      exact (((shows_name hspellings h.1.1).leads (by decide)).append
        (.commaList (shows_printAll hspellings args h.2))).close (by decide)
  | .builtin _ function args, h => by
      rw [Expr.parts, List.forall_mem_cons] at h
      rw [ExprPrinter.print, Expr.numerals, Expr.parts, List.filterMap_cons_none rfl,
        Expr.filterMap_partsOfAll, ExprPrinter.printAll_eq_map]
      exact shows_builtin function (shows_printAll hspellings args h.2)
  | .unary _ op operand, h => by
      rw [Expr.parts, List.forall_mem_cons] at h
      rw [ExprPrinter.print, Expr.numerals, Expr.parts, List.filterMap_cons_none rfl]
      exact shows_unary op (shows_print hspellings operand h.2)
  | .binary _ op left right, h => by
      rw [Expr.parts, List.forall_mem_cons, List.forall_mem_append] at h
      rw [ExprPrinter.print, Expr.numerals, Expr.parts, List.filterMap_cons_none rfl,
        List.filterMap_append]
      exact shows_binary op (shows_print hspellings left h.2.1) (shows_print hspellings right h.2.2)
  | .group _ inner, h => by
      rw [Expr.parts, List.forall_mem_cons] at h
      rw [ExprPrinter.print, Expr.numerals, Expr.parts, List.filterMap_cons_none rfl]
      exact (shows_print hspellings inner h.2).parenthesized

theorem shows_printAll (hspellings : ∀ spellings ∈ spellings?, spellings.Ascii) :
    ∀ args : List Expr,
    (∀ part ∈ Expr.partsOfAll args, part.OwnLegible) →
      ∀ e ∈ args, Shows target.escapes ((target.printer spellings?).print e).text e.numerals
  | [], _ => List.forall_mem_nil _
  | e :: args, h => by
      rw [Expr.partsOfAll, List.forall_mem_append] at h
      rw [List.forall_mem_cons]
      exact ⟨shows_print hspellings e h.1, shows_printAll hspellings args h.2⟩

end

end Printing

end BlockCode
