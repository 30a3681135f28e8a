/- # Access to random numbers

A program that draws random numbers needs a module in Python. The decision to import it is made on
the expressions of all passages, which are those of all slots: wherever a call of the built-in
stands in a slot, it is seen, also where the slot is printed at the end of a loop only, or twice.
Where it is seen it is also printed, so that some line of the code calls the module.

A program without such a call does not start with the import either. Its first line is that of a
statement, which starts with a word of the language, or with a name that something else follows than
the name of a module.
-/

import BlockCode.Proofs.Target.Passages
import BlockCode.Proofs.Target.PrintedParts
import BlockCode.Proofs.Target.SingleLines

namespace BlockCode

/-! ## The first word of a line -/

/-- What a program starts with that draws random numbers in Python. -/
def Python.importPrologue : String :=
  "import random\n\n"

/-- The characters that end the first word of a line. -/
def wordEnds : List Char :=
  [' ', '(', '[', '\n']

/-- The text starts with a word, and it does not go on as an import of random numbers does. -/
def ImportsNothing (text : List Char) : Prop :=
  ∃ word c rest, text = word ++ c :: rest ∧ (∀ d ∈ word, d ∉ wordEnds) ∧ c ∈ wordEnds ∧
    (word = "import".toList → c = ' ' → ∃ d ∈ rest.head?, d ≠ 'r')

namespace ImportsNothing

variable {text : List Char}

theorem append (h : ImportsNothing text) (more : List Char) : ImportsNothing (text ++ more) := by
  obtain ⟨word, c, rest, rfl, hword, hc, himport⟩ := h
  refine ⟨word, c, rest ++ more, by simp, hword, hc, fun hkeyword hspace => ?_⟩
  obtain ⟨d, hd, hne⟩ := himport hkeyword hspace
  exact ⟨d, by simp [List.head?_append, Option.mem_def.mp hd], hne⟩

theorem not_importPrologue (h : ImportsNothing text) :
    ¬ Python.importPrologue.toList <+: text := by
  rintro ⟨behind, heq⟩
  obtain ⟨word, c, rest, rfl, hword, hc, himport⟩ := h
  have hend : ∀ d ∈ (c :: rest).head?, decide (d ∉ wordEnds) = false := by
    rintro d ⟨⟩
    exact decide_eq_false (not_not.mpr hc)
  have hsplit := takeWhile_append_of_head (fun d hd => decide_eq_true (hword d hd)) hend
  rw [← heq] at hsplit
  obtain ⟨hfront, hrest⟩ := hsplit
  have hkeyword : word = "import".toList := hfront.symm
  have hbehind : c :: rest = ' ' :: 'r' :: ("andom\n\n".toList ++ behind) := hrest.symm
  obtain ⟨rfl, rfl⟩ := List.cons.inj hbehind
  obtain ⟨d, hd, hne⟩ := himport hkeyword rfl
  exact hne (Option.some.inj hd).symm

/-- A line that starts with a word of the language. -/
theorem of_keyword (keyword : String)
    (hkeyword : keyword ∈ ["print(", "if ", "while ", "for ", "def ", "# ", "break\n"])
    (rest : String) : ImportsNothing (keyword ++ rest).toList := by
  have hall : ∀ keyword ∈ ["print(", "if ", "while ", "for ", "def ", "# ", "break\n"],
      keyword.toList = keyword.toList.dropLast ++ [keyword.toList.getLastD ' '] ∧
        (∀ d ∈ keyword.toList.dropLast, d ∉ wordEnds) ∧
        keyword.toList.getLastD ' ' ∈ wordEnds ∧ keyword.toList.dropLast ≠ "import".toList := by
    decide
  obtain ⟨hsplit, hword, hend, hne⟩ := hall keyword hkeyword
  refine ⟨_, _, rest.toList, ?_, hword, hend, fun heq => absurd heq hne⟩
  rw [String.toList_append, hsplit, List.append_assoc]
  simp

/-- A line that starts with a name, behind which an operator, a parenthesis or a bracket stands. -/
theorem of_name {word rest : List Char} (hword : ∀ d ∈ word, d ∉ wordEnds)
    (hrest : ∃ c behind, rest = c :: behind ∧ c ∈ wordEnds ∧
      (c = ' ' → ∃ d ∈ behind.head?, d ≠ 'r')) :
    ImportsNothing (word ++ rest) := by
  obtain ⟨c, behind, rfl, hc, hspace⟩ := hrest
  exact ⟨word, c, behind, rfl, hword, hc, fun _ => hspace⟩

end ImportsNothing

theorem notMem_wordEnds_of_isWordChar {c : Char} (h : isWordChar c = true) : c ∉ wordEnds := by
  have hall : ∀ d ∈ wordEnds, isWordChar d = false := by decide
  intro hmem
  rw [hall c hmem] at h
  cases h

/-- A line that starts with what it writes to is no import. -/
theorem importsNothing_of_assignable {e : Expr} (h : e.assignableName?.isSome = true)
    (hlegible : ∀ part ∈ e.parts, part.OwnLegible) {operator : List Char} {d : Char}
    (hd : d ≠ 'r') :
    ImportsNothing (((Target.python.printer none).text e).toList ++ ' ' :: d :: operator) := by
  obtain ⟨span, word, positions, hmem, hprint, hpositions⟩ :=
    @exists_text_of_assignable .python none e h
  have hlexeme : IsLexeme .name word := hlegible _ hmem
  have hword : ∀ d ∈ word.toList, d ∉ wordEnds := fun d hd =>
    notMem_wordEnds_of_isWordChar (hlexeme.isWordChar_of_mem d hd)
  have htext : ((Target.python.printer none).text e).toList = word.toList ++ positions.toList := by
    rw [ExprPrinter.text, hprint, Printed.primary, String.toList_append]
    rfl
  rw [htext, List.append_assoc]
  refine .of_name hword ?_
  rcases hpositions with rfl | ⟨more, rfl⟩
  · exact ⟨' ', d :: operator, rfl, by decide, fun _ => ⟨d, rfl, hd⟩⟩
  · rw [String.toList_append, List.append_assoc]
    exact ⟨'[', _, rfl, by decide, fun hc => absurd hc (by decide)⟩

/-- The header of a loop over integers is a header. -/
theorem Python.exists_text_of_rangeHeader {p : ExprPrinter} {direction : Direction}
    {counter first last step : Expr} {text : String}
    (h : Python.rangeHeader p direction counter first last step = .ok text) :
    ∃ rest, text = "for " ++ rest := by
  obtain ⟨_, _, h⟩ := bind_eq_ok_iff.mp h
  cases direction with
  | up =>
      dsimp only at h
      split at h <;> cases h <;> simp only [String.append_assoc] <;> exact ⟨_, rfl⟩
  | down =>
      obtain ⟨_, _, ⟨⟩⟩ := bind_eq_ok_iff.mp h
      simp only [String.append_assoc]
      exact ⟨_, rfl⟩

/-- The action starts a line of its own: with a word of the language, with what it writes to or with
the name of a function. -/
structure Action.StartsLine (action : Action) : Prop where
  kind : action.kind.predecessors? = none
  written : ∀ e ∈ action.written?,
    e.assignableName?.isSome = true ∧ ∀ part ∈ e.parts, part.OwnLegible
  name : ∀ name ∈ Vba.functionName? action, ∀ d ∈ name.toList, d ∉ wordEnds

/-- The first line of such an action is no import. -/
theorem Action.StartsLine.exists_line {action : Action} (h : action.StartsLine)
    {own : List CodeLine} (hown : Target.lines .python none action = .ok own) :
    ∃ line rest, own = line :: rest ∧ line.depth = 0 ∧
      ImportsNothing (line.text ++ "\n").toList := by
  have hwritten {e : Expr} (he : e ∈ action.written?) {operator : List Char} {d : Char}
      (hd : d ≠ 'r') :
      ImportsNothing (((Target.python.printer none).text e).toList ++ ' ' :: d :: operator) :=
    importsNothing_of_assignable (h.written e he).1 (h.written e he).2 hd
  cases action with
  | assign | initializeArray | fillArray =>
      cases hown
      refine ⟨_, _, rfl, rfl, ?_⟩
      simp only [String.toList_append, List.append_assoc]
      exact hwritten rfl (d := '=') (by decide)
  | change direction =>
      cases direction with
      | up =>
          cases hown
          refine ⟨_, _, rfl, rfl, ?_⟩
          simp only [String.toList_append, List.append_assoc]
          exact hwritten rfl (d := '+') (by decide)
      | down =>
          cases hown
          refine ⟨_, _, rfl, rfl, ?_⟩
          simp only [String.toList_append, List.append_assoc]
          exact hwritten rfl (d := '-') (by decide)
  | count =>
      rw [Target.lines, Python.lines] at hown
      split at hown
      · cases hown
        refine ⟨_, _, rfl, rfl, ?_⟩
        simp only [String.toList_append, List.append_assoc]
        exact hwritten rfl (d := '=') (by decide)
      · obtain ⟨text, htext, ⟨⟩⟩ := bind_eq_ok_iff.mp hown
        obtain ⟨rest, rfl⟩ := Python.exists_text_of_rangeHeader htext
        refine ⟨_, _, rfl, rfl, ?_⟩
        rw [String.append_assoc]
        exact .of_keyword "for " (by decide) _
  | callFunction name =>
      cases hown
      refine ⟨_, _, rfl, rfl, ?_⟩
      simp only [String.toList_append, List.append_assoc]
      exact .of_name (h.name name rfl) ⟨'(', _, rfl, by decide, fun hc => absurd hc (by decide)⟩
  | output | ifThen | whileLoop | defineFunction =>
      cases hown
      refine ⟨_, _, rfl, rfl, ?_⟩
      simp only [String.append_assoc]
      exact .of_keyword _ (by decide) _
  | doWhile =>
      cases hown
      exact ⟨_, _, rfl, rfl, .of_keyword "while " (by decide) "True:\n"⟩
  | leaveLoop =>
      cases hown
      exact ⟨_, _, rfl, rfl, .of_keyword "break\n" (by decide) ""⟩
  | region =>
      cases hown
      refine ⟨_, _, rfl, rfl, ?_⟩
      rw [CodeLine.comment, String.append_assoc]
      exact .of_keyword "# " (by decide) _
  | elseIf | otherwise | endIf | endWhile | endDoWhile | endCount | endFunction | endRegion =>
      cases h.kind

theorem CodeLine.layout_of_depth_eq_zero {line : CodeLine} (h : line.depth = 0) (width : Nat) :
    line.layout width = line.text ++ "\n" := by
  rw [layout, h, Nat.zero_mul]
  split
  · next hempty =>
    rw [String.isEmpty_iff.mp hempty]
  · rfl

namespace Block

variable {program : Block}

/-- The name of a function has no blank and no bracket, as it was typed. -/
theorem notMem_wordEnds_of_functionName (hvalid : program.validate = []) {s : Statement}
    (hs : s ∈ program.statements) (hkind : s.kind = .defineFunction ∨ s.kind = .callFunction) :
    ∀ d ∈ (s.plainSlot 0).toList, d ∉ wordEnds := by
  have hends : ∀ d ∈ wordEnds, foldWidth d = d := by decide
  intro d hd hmem
  have hword := isWordChar_of_mem_functionName hvalid hs hkind d hd
  rw [hends d hmem] at hword
  exact notMem_wordEnds_of_isWordChar hword hmem

/-- A statement that may come where no block is open does what starts a line of its own. -/
theorem startsLine_of_action (hvalid : program.validate = []) {s : Statement}
    (hs : s ∈ program.statements) (hopen : s.kind.predecessors? = none)
    {loop? : Option StatementKind} {action : Action}
    (haction : s.action .python loop? none = .ok action) : action.StartsLine := by
  have hcloses : s.kind.closesBlock ≠ true := by
    revert hopen
    cases s.kind <;> decide
  have hfrom := Statement.action_from (checked_of_validate hvalid s hs) (by simp)
    (fun h => absurd h hcloses) haction
  refine ⟨Statement.kind_of_action haction ▸ hopen, fun e he => ?_, fun name hname => ?_⟩
  · obtain ⟨hkind, hread⟩ := Statement.exprIn_of_written haction he
    obtain ⟨hassignable, hmem⟩ := exists_assignable hvalid hs hkind hread
    exact ⟨hassignable, (Statement.legible_of_mem_readableExprs hmem).1⟩
  · obtain ⟨source, hsource, hkind, rfl⟩ := hfrom.name name hname
    obtain rfl := List.mem_singleton.mp hsource
    exact notMem_wordEnds_of_functionName hvalid hs hkind

/-- The code of a program, as the layouts of the lines of its passages. -/
def codeOf (options : RenderOptions) (passages : List Passage) : String :=
  String.join ((passages.flatMap Passage.lines).map (CodeLine.layout options.indentWidth))

theorem codeOf_cons (options : RenderOptions) (exprs : List Expr) (line : CodeLine)
    (lines : List CodeLine) (passages : List Passage) :
    codeOf options (⟨exprs, line :: lines⟩ :: passages) =
      line.layout options.indentWidth ++ codeOf options (⟨exprs, lines⟩ :: passages) := by
  simp [codeOf]

/-- Without the import, the code starts with the first line of the first statement. -/
theorem not_importPrologue_codeOf (hvalid : program.validate = []) (options : RenderOptions)
    {passages : List Passage} (h : program.passages .python none {} [] = .ok passages) :
    ¬ Python.importPrologue.toList <+: (codeOf options passages).toList := by
  cases program with
  | nil =>
      cases h
      exact fun hprefix => absurd (List.prefix_nil.mp hprefix) (by decide)
  | cons head body next =>
      have horderly := (wellFormed_of_validate hvalid).orderly
      have hopen : head.kind.predecessors? = none :=
        Settled.predecessors?_eq_none (by simp [Settled]) horderly.2.1
      obtain ⟨own, nested, rest, hown, -, -, -, rfl⟩ := exists_of_passages_cons h
      obtain ⟨action, lines, haction, hlines, rfl⟩ := Statement.exists_action_of_passage hown
      have hopener : head.opener? [] = none := ite_self none
      rw [hopener] at haction
      obtain ⟨line, others, rfl, hdepth, hline⟩ :=
        (startsLine_of_action hvalid (.head _) hopen haction).exists_line hlines
      rw [List.map_cons, codeOf_cons,
        CodeLine.layout_of_depth_eq_zero ((Nat.zero_add _).trans hdepth), String.toList_append]
      exact (hline.append _).not_importPrologue

/-- Some expression of a statement calls the built-in that draws a random number. -/
def DrawsRandom (program : Block) : Prop :=
  ∃ s ∈ program.statements, ∃ e ∈ s.readableExprs, ∃ span args,
    Expr.builtin span .random args ∈ e.parts

/-- What calls a built-in is no name of a function. -/
theorem mem_exprs_of_builtin (hvalid : program.validate = []) {s : Statement}
    (hs : s ∈ program.statements) {action : Action} (h : s.ReadBy .python action) {e : Expr}
    (he : e ∈ s.readableExprs) {span : Span} {function : Builtin} {args : List Expr}
    (hpart : .builtin span function args ∈ e.parts) : e ∈ action.exprs := by
  rcases h.mem_exprs (checked_of_validate hvalid s hs) he with he | ⟨hkind, hname⟩
  · exact he
  · obtain ⟨span, word, hword, -⟩ := exists_functionName hvalid hs hkind
    obtain rfl := Except.ok.inj (hname.symm.trans hword)
    cases List.mem_singleton.mp hpart

/-- The passages of a program see the calls in its slots, and no others. -/
theorem any_callsBuiltin_iff (hvalid : program.validate = []) {passages : List Passage}
    (h : program.passages .python none {} [] = .ok passages) :
    (passages.any fun passage => passage.exprs.any (Expr.callsBuiltin .random)) = true ↔
      program.DrawsRandom := by
  have hwell := wellFormed_of_validate hvalid
  have hchecked := checked_of_validate hvalid
  simp only [List.any_eq_true, Expr.callsBuiltin_iff]
  constructor
  · rintro ⟨passage, hpassage, e, he, hcall⟩
    obtain ⟨s, hs, hread⟩ := exists_source_of_mem_passages hwell.orderly hchecked (.none [])
      (List.forall_mem_nil _) h passage hpassage e he
    exact ⟨s, hs.resolve_left List.not_mem_nil, e, hread, hcall⟩
  · rintro ⟨s, hs, e, hread, hcall⟩
    obtain ⟨action, haction, own, depth, -, hmem⟩ :=
      (renderedIn_of_mem hwell.orderly hwell.scoped h s hs).exists_readBy
    obtain ⟨_, _, hpart⟩ := hcall
    exact ⟨_, hmem, e, mem_exprs_of_builtin hvalid hs haction hread hpart, _, _, hpart⟩

/-- What the import is decided on is what is printed. Where a program draws random numbers, the call
of the module stands in some line of its code. -/
theorem exists_line_randomCall (hvalid : program.validate = []) {options : RenderOptions}
    {spellings? : Option Spellings} {lines : List CodeLine}
    (h : program.codeLines .python options spellings? = .ok lines) (hdraws : program.DrawsRandom) :
    ∃ line ∈ lines, Contains line.text Python.randomCall := by
  obtain ⟨passages, hpassages, rfl⟩ := map_eq_ok_iff.mp h
  obtain ⟨s, hs, e, he, span, args, hpart⟩ := hdraws
  have hwell := wellFormed_of_validate hvalid
  have hrendered := renderedIn_of_document hwell.orderly hwell.scoped hpassages s hs
  have hcall : Contains ((Target.python.printer spellings?).text e) Python.randomCall :=
    Python.contains_randomCall (Statement.legible_of_mem_readableExprs he).1
      (Expr.callsBuiltin_of_mem_parts hpart)
  have hliteral := Expr.literalInteger?_of_builtin hpart
  have hparen : '(' ∈ ((Target.python.printer spellings?).text e).toList :=
    hcall.subset (by decide)
  suffices hline : ∃ line ∈ passages.flatMap Passage.lines,
      Contains line.text ((Target.python.printer spellings?).text e) by
    obtain ⟨line, hmem, hcontains⟩ := hline
    exact ⟨line, hmem, hcontains.trans hcall⟩
  obtain ⟨action, haction, hprinted⟩ := hrendered.exists_readBy
  have hexpr := mem_exprs_of_builtin hvalid hs haction he hpart
  obtain ⟨own, depth, hown, hmem⟩ := hprinted.exists_lines
  have hkind : action.kind ≠ .endFor := by
    obtain ⟨slot, hslot, -⟩ := Statement.exists_readSlot_of_mem_readableExprs he
    have hcloses := Statement.closesBlock_of_mem_expressionSlots hslot
    intro hfor
    rcases haction.kind_eq with heq | heq
    · rw [← heq, hfor] at hcloses
      cases hcloses
    · cases heq.symm.trans hfor
  rcases Python.exists_line_contains hown hkind hexpr hliteral hparen with
    ⟨line, hline, hcontains⟩ | ⟨direction, counter, first, last, rfl, hfractions⟩
  · exact ⟨_, hmem line hline, hcontains⟩
  · -- The step of a loop over fractions is printed with the end of the loop.
    obtain ⟨hloop, rfl, hfirst, hlast, hstep⟩ := haction.of_count
    obtain ⟨_, first', last', step', -, hfirst', hlast', hstep', -, hfooter⟩ :=
      hrendered.exists_loop hloop
    obtain rfl := Except.ok.inj (hfirst.symm.trans hfirst')
    obtain rfl := Except.ok.inj (hlast.symm.trans hlast')
    obtain rfl := Except.ok.inj (hstep.symm.trans hstep')
    rw [Target.footerFor, if_pos hfractions] at hfooter
    obtain ⟨footer, depth', hown', hmem'⟩ := hfooter.exists_lines
    obtain ⟨line, hline, hcontains⟩ := Python.exists_footer_contains hown'
    exact ⟨_, hmem' line hline, hcontains⟩

/-- A program without findings is rendered in Python with the import in front exactly if it draws
random numbers, unless a counting loop in it overflows. -/
theorem render_importPrologue_iff (hvalid : program.validate = []) (options : RenderOptions) :
    (∃ code, program.render .python options = .ok code ∧
        (Python.importPrologue.toList <+: code.toList ↔ program.DrawsRandom)) ∨
      (∃ operation, program.render .python options = .error (.overflow operation)) ∧
        program.OverflowsIn .python := by
  have hwell := wellFormed_of_validate hvalid
  have hrender : program.render .python options =
      (program.document .python options none).map (codeOf options) := by
    rw [render, renderWith_of_checkSpelled hvalid rfl, generate, codeLines]
    cases program.document .python options none <;> rfl
  have hdocument : OverflowsOnlyIf (program.document .python options none)
      (program.OverflowsIn .python) :=
    document_overflowsOnlyIf (by simp [Spellings.Lettered]) hwell.orderly
      (checked_of_validate hvalid) options
  rcases hdocument with ⟨passages, hpassages⟩ | ⟨⟨operation, hoperation⟩, hoverflows⟩
  · refine .inl ⟨codeOf options passages, by rw [hrender, hpassages]; rfl, ?_⟩
    obtain ⟨body, hbody, hpassages⟩ := bind_eq_ok_iff.mp hpassages
    rw [← any_callsBuiltin_iff hvalid hbody]
    split at hpassages
    · next hdraws =>
      cases hpassages
      refine iff_of_true ?_ hdraws
      have hcode : codeOf options (.ofLines Python.randomImport :: body) =
          Python.importPrologue ++ codeOf options (.ofLines [] :: body) := by
        rw [Passage.ofLines, Python.randomImport, codeOf_cons, codeOf_cons, ← String.append_assoc,
          CodeLine.layout_of_depth_eq_zero rfl, CodeLine.layout_of_depth_eq_zero rfl]
        exact congrArg (fun text => text ++ codeOf options (.ofLines [] :: body)) (by decide)
      rw [hcode, String.toList_append]
      exact List.prefix_append _ _
    · next hnone =>
      cases hpassages
      exact iff_of_false (not_importPrologue_codeOf hvalid options hbody) hnone
  · exact .inr ⟨⟨operation, by rw [hrender, hoperation]; rfl⟩, hoverflows⟩

end Block

/-- A loop whose test at the end draws a random number, inside of an operation. -/
def rollUntilSix : Block :=
  .cons ⟨"loop", .doWhile, ["Random(1, 6) + 1 < 7"], false, false⟩
    (.cons ⟨"count", .increment, ["n", "1"], false, false⟩ .nil .nil)
    (.cons ⟨"end", .endDoWhile, [], false, false⟩ .nil .nil)

/-- The loop has no finding, so its code starts with the import exactly if it draws. -/
theorem render_importPrologue_rollUntilSix :
    rollUntilSix.validate = [] ∧
      ((∃ code, rollUntilSix.render .python {} = .ok code ∧
          (Python.importPrologue.toList <+: code.toList ↔ rollUntilSix.DrawsRandom)) ∨
        (∃ operation, rollUntilSix.render .python {} = .error (.overflow operation)) ∧
          rollUntilSix.OverflowsIn .python) := by
  have hvalid : rollUntilSix.validate = [] := by decide +kernel
  exact ⟨hvalid, Block.render_importPrologue_iff hvalid {}⟩

/-- The call is printed behind the body, and the import stands in front. -/
example : rollUntilSix.render .python {} = .ok ("import random\n\nwhile True:\n    n += 1\n" ++
    "    if not (random.randint(1, 6) + 1 < 7):\n        break\n") := by
  decide +kernel

end BlockCode
