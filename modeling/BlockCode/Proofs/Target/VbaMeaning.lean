/- # What printed expressions denote in VBA

Texts are put together by the printer as pieces are put together by the reader of VBA, so each
printed text is read as what its expression is read as. With that, a printed expression denotes in
VBA what it means here, but for the two arrangements of operators that VBA groups otherwise.
-/

import BlockCode.Proofs.Expr.Equality
import BlockCode.Proofs.Expr.Meaning
import BlockCode.Proofs.Target.Fitting
import BlockCode.Proofs.Target.Spelled
import BlockCode.Proofs.Target.VbaRuns

namespace BlockCode.VbaReading

/-- Wherever the text stands, it is read as the piece. -/
def TextReads (text : String) (r : Reading) : Prop :=
  ∃ tokens, (∀ rest, Breaks rest → LexesAs rest text.toList tokens) ∧ Performs tokens r

namespace TextReads

variable {text : String} {x left right : Printed} {r leftReading rightReading : Reading}
  {tree : Tree}

/-- One token that is an operand. -/
theorem unit (token : Token) (hlexes : ∀ rest, Breaks rest → LexesAs rest text.toList [token])
    (htoken : ∀ outer pending, stepBefore outer pending token =
      some ⟨outer, pending, some tree⟩) : TextReads text (.unit tree) :=
  ⟨[token], hlexes, .unit token htoken⟩

theorem bool (value : Bool) :
    TextReads (if value then Dialect.vba.trueWord else Dialect.vba.falseWord)
      (.unit (.bool value)) := by
  cases value with
  | true =>
      refine unit (.bool true) (fun rest hrest => ?_) fun _ _ => rfl
      exact .single (c := 'T') (by decide) (nextToken?_word (by decide) (by decide) hrest)
  | false =>
      refine unit (.bool false) (fun rest hrest => ?_) fun _ _ => rfl
      exact .single (c := 'F') (by decide) (nextToken?_word (by decide) (by decide) hrest)

theorem name {word : String} (hword : IsLexeme .name word)
    (hreserved : reservedSegment? word = none) : TextReads word (.unit (.name word)) := by
  refine unit (.name word) (fun rest hrest => ?_) fun _ _ => rfl
  have hlexes := lexesAs_name hword hrest
  rwa [wordToken_of_reservedSegment? hreserved] at hlexes

theorem parenthesized (h : TextReads x.text r) : TextReads x.parenthesized (.unit r.tree) := by
  obtain ⟨tokens, hlexes, hperforms⟩ := h
  have htext : x.parenthesized.toList = '(' :: (x.text.toList ++ [')']) := by
    simp [Printed.parenthesized]
  refine ⟨_, fun rest _ => ?_, hperforms.group⟩
  rw [htext]
  exact .enclosed (hlexes _ (breaks_cons.mpr (by decide)))

/-- The printer and the reader agree on where the parentheses are. -/
theorem fitted (h : TextReads x.text r) (fits : Precedence → Bool) :
    TextReads (x.fitted fits).text (r.fitted (fits x.precedence)) := by
  rw [Printed.text_fitted]
  cases fits x.precedence with
  | true => exact h
  | false => exact h.parenthesized

/-- An operator between the texts of its operands. -/
theorem operation (op : BinaryOp) (hleft : TextReads left.text leftReading)
    (hright : TextReads right.text rightReading) :
    TextReads (left.text ++ " " ++ Dialect.vba.symbol op ++ " " ++ right.text)
      (.operation (.of op) leftReading rightReading) := by
  obtain ⟨ws, hws, hl⟩ := hleft
  obtain ⟨vs, hvs, hr⟩ := hright
  refine ⟨ws ++ .operator (.of op) :: vs, fun rest hrest => ?_, hl.operation _ hr⟩
  have htext : (left.text ++ " " ++ Dialect.vba.symbol op ++ " " ++ right.text).toList =
      left.text.toList ++ ((' ' :: ((Dialect.vba.symbol op).toList ++ [' '])) ++
        right.text.toList) := by
    simp
  rw [htext]
  exact .append (hws _ (breaks_cons.mpr (by decide)))
    (.append (lexesAs_symbol op _) (hvs rest hrest))

/-- An operator in front of the text of its operand. -/
theorem sign {p : ExprPrinter} (hp : p.dialect = .vba) (op : UnaryOp) (h : TextReads x.text r) :
    TextReads (p.sign op ++ x.text) (.sign op r) := by
  obtain ⟨ws, hws, hperforms⟩ := h
  rw [TextReads, String.toList_append]
  cases op with
  | negate =>
      refine ⟨_, fun rest hrest => ?_, hperforms.sign (.operator .subtract) fun _ _ => rfl⟩
      have hsign : LexesAs (x.text.toList ++ rest) ['-'] [.operator .subtract] :=
        .single (by decide) rfl
      rw [ExprPrinter.sign]
      exact hsign.append (hws rest hrest)
  | not =>
      refine ⟨_, fun rest hrest => ?_, hperforms.sign .not fun _ _ => rfl⟩
      have hword : LexesAs ([' '] ++ (x.text.toList ++ rest)) "Not".toList [.not] :=
        .single (c := 'N') (by decide)
          (nextToken?_word (by decide) (by decide) (breaks_cons.mpr (by decide)))
      have hsign : LexesAs (x.text.toList ++ rest) "Not ".toList [.not] :=
        hword.append (.gap .nil)
      rw [ExprPrinter.sign, hp]
      exact hsign.append (hws rest hrest)

/-- Texts between commas. -/
theorem exists_items {xs : List Printed} {trees : List Tree}
    (h : List.Forall₂ (fun x tree => ∃ r, TextReads x.text r ∧ r.tree = tree) xs trees) :
    ∃ wss, List.Forall₂ (fun ws tree => ∃ r, Performs ws r ∧ r.tree = tree) wss trees ∧
      ∀ rest, Breaks rest → LexesAs rest (commaList (xs.map Printed.text)).toList
        ([Token.comma].intercalate wss) := by
  induction h with
  | nil => exact ⟨[], .nil, fun _ _ => .nil⟩
  | @cons x tree xs trees hx hxs ih =>
      obtain ⟨r, ⟨ws, hws, hperforms⟩, htree⟩ := hx
      obtain ⟨wss, hwss, hlexes⟩ := ih
      refine ⟨ws :: wss, .cons ⟨r, hperforms, htree⟩ hwss, fun rest hrest => ?_⟩
      cases hxs with
      | nil =>
          cases hwss
          rw [List.map_singleton, commaList, String.intercalate_singleton,
            List.intercalate_singleton]
          exact hws rest hrest
      | @cons next nextTree xs trees _ _ =>
          cases hwss with
          | @cons vs _ wss _ _ _ =>
              have htext : (commaList ((x :: next :: xs).map Printed.text)).toList =
                  x.text.toList ++
                    ([','] ++ ' ' :: (commaList ((next :: xs).map Printed.text)).toList) := by
                simp [commaList, String.intercalate_cons_cons]
              rw [htext, List.intercalate_cons_cons, List.append_assoc]
              exact .append (hws _ (breaks_cons.mpr (by decide)))
                (.append (.single (by decide) rfl) (.gap (hlexes rest hrest)))

/-- A text with arguments in parentheses behind it. -/
theorem apply (h : TextReads text (.unit tree)) (hcallable : tree.isCallable = true)
    {xs : List Printed} {trees : List Tree}
    (hargs : List.Forall₂ (fun x tree => ∃ r, TextReads x.text r ∧ r.tree = tree) xs trees) :
    TextReads (text ++ "(" ++ commaList (xs.map Printed.text) ++ ")")
      (.unit (.apply tree trees)) := by
  obtain ⟨ws, hws, hperforms⟩ := h
  obtain ⟨wss, hwss, hlexes⟩ := exists_items hargs
  refine ⟨_, fun rest _ => ?_, hperforms.apply hcallable hwss⟩
  have htext : (text ++ "(" ++ commaList (xs.map Printed.text) ++ ")").toList =
      text.toList ++ '(' :: ((commaList (xs.map Printed.text)).toList ++ [')']) := by
    simp
  rw [htext]
  exact .append (hws _ (breaks_cons.mpr (by decide)))
    (.enclosed (hlexes _ (breaks_cons.mpr (by decide))))

theorem read_eq (h : TextReads text r) : read text = some r.tree := by
  obtain ⟨tokens, hlexes, hperforms⟩ := h
  have hlex : lex text.toList = some tokens := by
    have hall := hlexes [] breaks_nil
    rw [LexesAs, List.append_nil, lex] at hall
    rw [hall]
    exact congrArg some (List.append_nil tokens)
  rw [read, hlex]
  exact hperforms.readTokens_eq

end TextReads

/-- What a node has to satisfy so that its own words are read as they are meant. -/
def Legible : Expr → Prop
  | .number _ text => IsLexeme .number text
  | .name _ word | .call _ word _ _ => IsLexeme .name word ∧ reservedSegment? word = none
  | .index _ base _ => base.TakesPositions
  | .builtin .. => False
  | _ => True

section

variable {p : ExprPrinter} (hp : p.dialect = .vba) {e : Expr}

include hp

theorem floorDivision_operator {op : BinaryOp} :
    op = .floorDivide → ∃ symbol, p.dialect.floorDivision = .operator symbol := by
  intro _
  rw [hp]
  exact ⟨"\\", rfl⟩

theorem precedence_print (he : Legible e) : (p.print e).precedence = printedLevel e := by
  cases e with
  | unary span op operand =>
      rw [ExprPrinter.print, ExprPrinter.unary_eq, ExprPrinter.unaryLevel.eq_def, hp]
      cases op <;> rfl
  | binary span op left right =>
      rw [ExprPrinter.print, ExprPrinter.binary_eq (floorDivision_operator hp), printedLevel]
  | builtin => exact he.elim
  | _ => rfl

theorem fitsUnary_eq_fitsSign (op : UnaryOp) : p.fitsUnary op = fitsSign op := by
  funext level
  rw [ExprPrinter.fitsUnary.eq_def, hp]
  cases op <;> rfl

end

/-- What takes positions is read as a unit to which arguments can be applied. -/
theorem readingOf_of_takesPositions {e : Expr} (h : e.TakesPositions) :
    readingOf e = .unit (readingOf e).tree ∧ (readingOf e).tree.isCallable = true := by
  cases e with
  | name | index | call | builtin => exact ⟨rfl, rfl⟩
  | _ => exact h.elim

theorem atom_print {p : ExprPrinter} {e : Expr} (he : Legible e) (h : e.TakesPositions) :
    (p.print e).atom = (p.print e).text := by
  cases e with
  | name | index | call => rfl
  | builtin => exact he.elim
  | _ => exact h.elim

mutual

/-- What is printed for VBA is read there as what the expression is read as. -/
theorem textReads_print {p : ExprPrinter} (hp : p.dialect = .vba)
    (hspellings : p.spellings? = none) :
    ∀ e : Expr, (∀ part ∈ e.parts, Legible part) → TextReads (p.print e).text (readingOf e)
  | .number span text, h =>
      .unit (.number text) (fun _ hrest => lexesAs_number (h _ (.head _)) hrest) fun _ _ => rfl
  | .string span contents, _ => by
      rw [ExprPrinter.print, hp]
      exact .unit (.string contents) (fun _ hrest => lexesAs_string contents hrest)
        fun _ _ => rfl
  | .bool span value, _ => by
      rw [ExprPrinter.print, hp]
      exact .bool value
  | .name span word, h => by
      rw [ExprPrinter.print, ExprPrinter.name_eq_self _ hspellings]
      exact .name (h _ (.head _)).1 (h _ (.head _)).2
  | .index span base position, h => by
      rw [Expr.parts, List.forall_mem_cons, List.forall_mem_append] at h
      obtain ⟨htakes, hbase, hposition⟩ := h
      obtain ⟨hunit, hcallable⟩ := readingOf_of_takesPositions htakes
      have hreads := textReads_print hp hspellings base hbase
      rw [hunit] at hreads
      rw [ExprPrinter.print, atom_print (hbase _ base.mem_parts_self) htakes, hp, readingOf]
      have hargs : List.Forall₂ (fun x tree => ∃ r, TextReads x.text r ∧ r.tree = tree)
          [p.print position] [(readingOf position).tree] :=
        .cons ⟨_, textReads_print hp hspellings position hposition, rfl⟩ .nil
      have happly := hreads.apply hcallable hargs
      rw [List.map_singleton, commaList, String.intercalate_singleton] at happly
      exact happly
  | .call span word args userDefined, h => by
      rw [Expr.parts, List.forall_mem_cons] at h
      obtain ⟨⟨hword, hreserved⟩, hargs⟩ := h
      rw [ExprPrinter.print, ExprPrinter.name_eq_self _ hspellings]
      exact (TextReads.name hword hreserved).apply rfl
        (textReads_printAll hp hspellings args hargs)
  | .builtin span function args, h => (h _ (.head _)).elim
  | .unary span op operand, h => by
      rw [Expr.parts, List.forall_mem_cons] at h
      rw [ExprPrinter.print, ExprPrinter.unary_eq, readingOf,
        ← precedence_print hp (h.2 _ operand.mem_parts_self), ← fitsUnary_eq_fitsSign hp]
      exact .sign hp op ((textReads_print hp hspellings operand h.2).fitted _)
  | .binary span op left right, h => by
      rw [Expr.parts, List.forall_mem_cons, List.forall_mem_append] at h
      obtain ⟨_, hleft, hright⟩ := h
      rw [ExprPrinter.print, ExprPrinter.binary_eq (floorDivision_operator hp), readingOf,
        ← precedence_print hp (hleft _ left.mem_parts_self),
        ← precedence_print hp (hright _ right.mem_parts_self), hp]
      exact .operation op ((textReads_print hp hspellings left hleft).fitted _)
        ((textReads_print hp hspellings right hright).fitted _)
  | .group span inner, h => by
      rw [Expr.parts, List.forall_mem_cons] at h
      exact (textReads_print hp hspellings inner h.2).parenthesized

/-- What is printed for several expressions is read as what they are read as. -/
theorem textReads_printAll {p : ExprPrinter} (hp : p.dialect = .vba)
    (hspellings : p.spellings? = none) :
    ∀ args : List Expr, (∀ part ∈ Expr.partsOfAll args, Legible part) →
      List.Forall₂ (fun x tree => ∃ r, TextReads x.text r ∧ r.tree = tree) (p.printAll args)
        (readTrees args)
  | [], _ => .nil
  | e :: args, h => by
      rw [Expr.partsOfAll, List.forall_mem_append] at h
      exact .cons ⟨_, textReads_print hp hspellings e h.1, rfl⟩
        (textReads_printAll hp hspellings args h.2)

end

/-- VBA reads what is printed for a checked expression, and reads it as what it means exactly if no
power is raised to a power without parentheses and no operator takes an operand of the operation
on its left. The printer goes by the levels of this library, on which remainder, rounding division
and product are one level and a chain of powers groups from the right. -/
theorem read_text_printer {fragment : String} {e : Expr} (hprepare : prepare fragment = .ok e)
    (hbuiltin : ∀ function, e.callsBuiltin function = false) :
    (∃ tree, read ((Target.vba.printer none).text e) = some tree) ∧
      (read ((Target.vba.printer none).text e) = some (treeOf e) ↔
        ∀ part ∈ e.parts, ¬ RaisesToPower part ∧ ¬ TakesOperand part) := by
  simp only [prepare, bind_eq_ok_iff] at hprepare
  obtain ⟨_, _, _, hparse, ⟨⟩, hnames, heq⟩ := hprepare
  cases heq
  have hown := Expr.ownLegible_of_parseExpr hparse
  have hlegible : ∀ part ∈ e.parts, Legible part := by
    intro part hpart
    have hpartOwn := hown part hpart
    cases part with
    | number => exact hpartOwn
    | name => exact ⟨hpartOwn, checkNames_eq_ok_iff.mp hnames _ hpart _ rfl⟩
    | call => exact ⟨hpartOwn.1, checkNames_eq_ok_iff.mp hnames _ hpart _ rfl⟩
    | index => exact hpartOwn
    | builtin span function args =>
        exact Bool.false_ne_true
          ((hbuiltin function).symm.trans (Expr.callsBuiltin_of_mem_parts hpart))
    | string | bool | unary | binary | group => trivial
  have hread : read ((Target.vba.printer none).text e) = some (readingOf e).tree :=
    (textReads_print (p := Target.vba.printer none) rfl rfl e hlegible).read_eq
  refine ⟨⟨_, hread⟩, ?_⟩
  rw [hread, Option.some.injEq]
  exact tree_readingOf_eq_iff e

/-- A comparison of a product, whose first factor stands in parentheses, with a negated power. -/
def productBelowPower : Expr :=
  .binary ⟨0, 35⟩ .and
    (.unary ⟨0, 8⟩ .not (.call ⟨4, 8⟩ "f" [.name ⟨6, 7⟩ "x"] false))
    (.binary ⟨13, 35⟩ .lessEqual
      (.binary ⟨13, 24⟩ .multiply
        (.group ⟨13, 20⟩ (.binary ⟨14, 19⟩ .modulo (.name ⟨14, 15⟩ "a") (.name ⟨18, 19⟩ "b")))
        (.name ⟨23, 24⟩ "c"))
      (.unary ⟨28, 35⟩ .negate
        (.binary ⟨29, 35⟩ .power (.name ⟨29, 30⟩ "d") (.number ⟨34, 35⟩ "2"))))

/-- VBA reads the comparison as it is meant. -/
theorem read_text_productBelowPower :
    prepare "not f(x) and (a % b) * c <= -d ** 2" = .ok productBelowPower ∧
      (Target.vba.printer none).text productBelowPower = "Not f(x) And (a Mod b) * c <= -d ^ 2" ∧
      read ((Target.vba.printer none).text productBelowPower) =
        some (treeOf productBelowPower) := by
  have hprepare : prepare "not f(x) and (a % b) * c <= -d ** 2" = .ok productBelowPower := by
    decide +kernel
  refine ⟨hprepare, by decide +kernel, ?_⟩
  have hbuiltin : ∀ function, productBelowPower.callsBuiltin function = false := by
    intro function
    cases function <;> rfl
  apply (read_text_printer hprepare hbuiltin).2.mpr
  simp [productBelowPower, Expr.parts, Expr.partsOfAll, RaisesToPower, TakesOperand,
    BinaryOp.precedence]

/-- A product whose first factor is a remainder. -/
def productOfRemainder : Expr :=
  .binary ⟨0, 9⟩ .multiply (.binary ⟨0, 5⟩ .modulo (.name ⟨0, 1⟩ "a") (.name ⟨4, 5⟩ "b"))
    (.name ⟨8, 9⟩ "c")

/-- The product is printed without parentheses, and VBA multiplies before it takes the
remainder. -/
theorem read_text_productOfRemainder :
    prepare "a % b * c" = .ok productOfRemainder ∧
      (∀ function, productOfRemainder.callsBuiltin function = false) ∧
      (Target.vba.printer none).text productOfRemainder = "a Mod b * c" ∧
      read ((Target.vba.printer none).text productOfRemainder) =
        some (.binary .remainder (.name "a") (.binary .multiply (.name "b") (.name "c"))) ∧
      read ((Target.vba.printer none).text productOfRemainder) ≠
        some (treeOf productOfRemainder) := by
  have hread : read ((Target.vba.printer none).text productOfRemainder) =
      some (.binary .remainder (.name "a") (.binary .multiply (.name "b") (.name "c"))) := by
    with_unfolding_all rfl
  refine ⟨by decide +kernel, ?_, by decide +kernel, hread, ?_⟩
  · intro function
    cases function <;> rfl
  · rw [hread]
    intro heq
    cases heq

end BlockCode.VbaReading
