/- # Lines of a rendered text

A rendered text is cut into lines again at its line feeds. These are the lines of code in their
order where no line of code has a line feed of its own. Only the label of a region, which is printed
as it is typed, and the contents of a string literal can bring one.
-/

import BlockCode.Proofs.Target.AsciiNames
import BlockCode.Proofs.Target.OneLine
import BlockCode.Proofs.Target.VbaRuns
import BlockCode.Proofs.Text.Cutting

namespace BlockCode

/-! ## Cutting a text into lines -/

namespace CodeLine

variable {width : Nat} {line : CodeLine}

/-- Indentation brings no line feed. -/
theorem onOneLine_row : OnOneLine (line.row width) ↔ OnOneLine line.text := by
  rw [row]
  split
  · next hempty =>
    rw [String.isEmpty_iff.mp hempty]
  · simp [OnOneLine]

end CodeLine

/-- The text is cut into its lines of code exactly where none of them has a line feed. Behind the
last line stands nothing. -/
theorem stringPiecesAt_layout_iff {width : Nat} {lines : List CodeLine} :
    stringPiecesAt '\n' (String.join (lines.map (CodeLine.layout width))) =
        lines.map (CodeLine.row width) ++ [""] ↔
      ∀ line ∈ lines, OnOneLine line.text := by
  constructor
  · intro h line hline
    have hpiece : line.row width ∈
        stringPiecesAt '\n' (String.join (lines.map (CodeLine.layout width))) := by
      rw [h]
      exact List.mem_append_left _ (List.mem_map_of_mem hline)
    obtain ⟨piece, hpiece, hrow⟩ := List.mem_map.mp hpiece
    rw [← @CodeLine.onOneLine_row width line, ← hrow, OnOneLine, String.toList_ofList]
    exact separator_notMem_of_mem_piecesAt hpiece
  · intro h
    induction lines with
    | nil => rfl
    | cons line lines ih =>
        rw [List.forall_mem_cons] at h
        have hrow : '\n' ∉ (line.row width).toList := CodeLine.onOneLine_row.mpr h.1
        have htext : (String.join ((line :: lines).map (CodeLine.layout width))).toList =
            (line.row width).toList ++
              '\n' :: (String.join (lines.map (CodeLine.layout width))).toList := by
          simp [CodeLine.layout_eq]
        rw [stringPiecesAt, htext, piecesAt_append hrow, List.map_cons, String.ofList_toList]
        exact congrArg (_ :: ·) (ih h.2)

/-! ## Lines of a program -/

instance : DecidablePred Expr.OwnOnOneLine
  | .string _ contents => inferInstanceAs (Decidable (OnOneLine contents))
  | .number .. | .bool .. | .name .. | .index .. | .call .. | .builtin .. | .unary .. | .binary ..
  | .group .. => isTrue trivial

/-- The statement has no line feed in its label, if it is a region, and none in a string literal. -/
def Statement.OnOneLine (s : Statement) : Prop :=
  (s.kind = .region → BlockCode.OnOneLine (s.plainSlot 0)) ∧
    ∀ e ∈ s.readableExprs, ∀ part ∈ e.parts, part.OwnOnOneLine

instance (s : Statement) : Decidable s.OnOneLine :=
  inferInstanceAs (Decidable (_ ∧ _))

/-- The statement is checked and stands on one line, and so does the function that it defines or
calls. -/
structure Statement.Lined (s : Statement) : Prop where
  checked : s.Checked
  onOneLine : s.OnOneLine
  name : s.kind = .defineFunction ∨ s.kind = .callFunction →
    BlockCode.OnOneLine (s.plainSlot 0)

/-- What a comment in the target starts with. -/
def Target.commentMark : Target → String
  | .javaScript => "//"
  | .python | .ruby => "#"
  | .vba => "'"

/-- The line is one line of the text, and starts as a comment if it is no code. -/
def CodeLine.StaysInLine (target : Target) (line : CodeLine) : Prop :=
  OnOneLine line.text ∧ (line.isCode = false → target.commentMark.toList <+: line.text.toList)

/-- Only the lines of regions are no code, and they start as comments. -/
theorem Target.commentMark_isPrefix {target : Target} {spellings? : Option Spellings}
    {action : Action} {own : List CodeLine} (h : target.lines spellings? action = .ok own) :
    ∀ line ∈ own, line.isCode = false → target.commentMark.toList <+: line.text.toList := by
  have comment {mark text : String} :
      mark.toList <+: (CodeLine.comment mark text).text.toList := by
    rw [CodeLine.comment, String.append_assoc, String.toList_append]
    exact List.prefix_append _ _
  cases target with
  | javaScript =>
      cases h
      cases action with
      | region | endRegion => exact List.forall_mem_singleton.mpr fun _ => comment
      | change direction => cases direction <;> simp [JavaScript.lines, CodeLine.isCode]
      | _ => simp [JavaScript.lines, CodeLine.isCode]
  | ruby =>
      cases action with
      | region | endRegion =>
          cases h
          exact List.forall_mem_singleton.mpr fun _ => comment
      | change direction => cases direction <;> cases h <;> simp [CodeLine.isCode]
      | count =>
          obtain ⟨_, -, ⟨⟩⟩ := bind_eq_ok_iff.mp h
          simp [CodeLine.isCode]
      | _ =>
          cases h
          simp [CodeLine.isCode]
  | vba =>
      cases action with
      | region | endRegion =>
          cases h
          exact List.forall_mem_singleton.mpr fun _ => comment
      | count =>
          obtain ⟨_, -, ⟨⟩⟩ := bind_eq_ok_iff.mp h
          simp [CodeLine.isCode]
      | _ =>
          cases h
          simp [CodeLine.isCode]
  | python =>
      cases action with
      | region | endRegion =>
          cases h
          exact List.forall_mem_singleton.mpr fun _ => comment
      | change direction => cases direction <;> cases h <;> simp [CodeLine.isCode]
      | count direction =>
          simp only [Target.lines, Python.lines] at h
          split at h
          · cases h
            simp [Python.fractionHeader, CodeLine.isCode]
          · obtain ⟨_, -, ⟨⟩⟩ := bind_eq_ok_iff.mp h
            simp [CodeLine.isCode]
      | endCount footer =>
          cases h
          cases footer with
          | advance direction => cases direction <;> simp [Python.footer, CodeLine.isCode]
          | _ => simp [Python.footer]
      | _ =>
          cases h
          simp [CodeLine.isCode]

theorem IsLexeme.onOneLine_name {word : String} (h : IsLexeme .name word) : OnOneLine word :=
  fun hmem => absurd (h.isWordChar_of_mem _ hmem) (by decide)

theorem IsLexeme.onOneLine_number {text : String} (h : IsLexeme .number text) : OnOneLine text :=
  fun hmem => by
    rcases h.isAsciiDigit_of_mem _ hmem with hdigit | hdot
    · exact absurd hdigit (by decide)
    · exact absurd hdot (by decide)

section Program

variable {spellings? : Option Spellings}
  (hspellings : ∀ spellings ∈ spellings?, ∀ entry ∈ spellings, BlockCode.OnOneLine entry.2)

include hspellings

variable {target : Target}

/-- A name is printed on one line if it stands on one, because the spellings do. -/
theorem onOneLine_name {word : String} (hword : OnOneLine word) :
    OnOneLine ((target.printer spellings?).name word) := by
  rw [ExprPrinter.name_eq_intercalate, onOneLine_intercalate (by decide)]
  apply ExprPrinter.forall_mem_segments (P := OnOneLine) _ hspellings
  intro segment hsegment hmem
  exact hword (mem_of_mem_nameSegments hsegment hmem)

/-- An expression that a statement reads is printed on one line if its string literals are. -/
theorem onOneLine_text {s : Statement} {e : Expr} (he : e ∈ s.readableExprs) (h : e.OnOneLine) :
    OnOneLine ((target.printer spellings?).text e) := by
  have hlegible := (Statement.legible_of_mem_readableExprs he).1
  refine (onOneLine_print e fun part hpart => ?_).mpr h
  have hown := hlegible part hpart
  cases part with
  | number _ text => exact hown.onOneLine_number
  | name _ word => exact onOneLine_name hspellings hown.onOneLine_name
  | call _ word => exact onOneLine_name hspellings hown.1.onOneLine_name
  | _ => trivial

namespace Statement.Lined

variable {s : Statement} (h : s.Lined)

include hspellings h

/-- The action of a statement on one line is printed on one line, where the header of the block that
the statement closes stands on one line too. -/
theorem action {loop? : Option StatementKind} {header? : Option Statement} {action : Action}
    (hheader : ∀ header ∈ header?, header.Lined)
    (hfits : s.kind.closesBlock = true → s.kind.Follows (header?.map Statement.kind))
    (haction : s.action target loop? header? = .ok action) :
    action.OnOneLine (target.printer spellings?) := by
  have hfrom := Statement.action_from h.checked (fun header hmem => (hheader header hmem).checked)
    hfits haction
  have hlined : ∀ source ∈ s :: header?.toList, source.Lined := by
    rw [List.forall_mem_cons]
    exact ⟨h, fun header hmem => hheader header (Option.mem_toList.mp hmem)⟩
  refine ⟨fun e he => ?_, fun name hname => ?_, fun label hlabel => ?_⟩
  · obtain ⟨source, hsource, he⟩ := hfrom.exprs e he
    exact onOneLine_text hspellings he ((hlined source hsource).onOneLine.2 e he)
  · obtain ⟨source, hsource, hkind, rfl⟩ := hfrom.name name hname
    exact onOneLine_name hspellings ((hlined source hsource).name hkind)
  · obtain ⟨source, hsource, hkind, rfl⟩ := hfrom.label label hlabel
    exact (hlined source hsource).onOneLine.1 hkind

theorem staysInLine_of_emits {depth : Nat} {around : List StatementKind}
    {header? : Option Statement} {lines : List CodeLine}
    (hheader : ∀ header ∈ header?, header.Lined)
    (hfits : s.kind.closesBlock = true → s.kind.Follows (header?.map Statement.kind))
    (hlines : s.Emits target spellings? depth around header? lines) :
    ∀ line ∈ lines, line.StaysInLine target := by
  obtain ⟨action, own, haction, hown, rfl⟩ := hlines
  rw [List.forall_mem_map]
  exact fun line hline => ⟨(h.action hspellings hheader hfits haction).lines hown line hline,
    Target.commentMark_isPrefix hown line hline⟩

end Statement.Lined

namespace Block

variable {program : Block} {options : RenderOptions}

omit hspellings in
/-- The statements of a program without findings name functions on one line. -/
theorem lined_of_validate (hvalid : program.validate = [])
    (hstatements : ∀ s ∈ program.statements, s.OnOneLine) :
    ∀ s ∈ program.statements, s.Lined := by
  exact fun s hs => ⟨checked_of_validate hvalid s hs, hstatements s hs, fun hkind hmem =>
    absurd (isWordChar_of_mem_functionName hvalid hs hkind '\n' hmem) (by decide)⟩

/-- The lines of a program whose statements stand on one line each stay lines of the text. -/
theorem staysInLine_of_codeLines (hvalid : program.validate = [])
    (hstatements : ∀ s ∈ program.statements, s.OnOneLine) (hentry : OnOneLine options.entryPoint)
    {lines : List CodeLine} (h : program.codeLines target options spellings? = .ok lines) :
    ∀ line ∈ lines, line.StaysInLine target := by
  have hform := wellFormed_of_validate hvalid
  have code {line : CodeLine} (htext : OnOneLine line.text) (hcode : line.isCode = true) :
      line.StaysInLine target :=
    ⟨htext, by simp [hcode]⟩
  refine forall_mem_codeLines hform.orderly hform.scoped ?_ ?_
    (fun hs => hs.staysInLine_of_emits hspellings) (lined_of_validate hvalid hstatements) h
  · cases target with
    | javaScript | ruby => exact List.forall_mem_nil _
    | python =>
        simp only [Target.frameLines, Python.randomImport, List.forall_mem_cons]
        exact ⟨code (by decide) rfl, code (by decide) rfl, by simp⟩
    | vba =>
        simp only [Target.frameLines, List.forall_mem_cons]
        have hopening : OnOneLine (Vba.entryLine options.entryPoint).text := by
          simp only [Vba.entryLine, onOneLine_append, hentry]
          decide
        exact ⟨code (by decide) rfl, code hopening rfl, code (by decide) rfl, by simp⟩
  · intro kind depth line hline
    cases target with
    | javaScript | ruby | vba => cases hline
    | python =>
        cases kind <;> cases hline <;> exact code (by decide : OnOneLine "pass") rfl

/-- Cutting the rendered text at its line feeds gives the lines of code in their order, and those
that are no code are comments, with whatever label is in them. This is so with any entry point and
any spellings that stand on one line, where no region has a label with a line feed in it, and no
statement a string literal with one. -/
theorem renderWith_physicalLines (hentry : OnOneLine options.entryPoint)
    (hstatements : ∀ s ∈ program.statements, s.OnOneLine) {code : String}
    (h : program.renderWith target options spellings? = .ok code) :
    ∃ lines, program.codeLines target options spellings? = .ok lines ∧
      stringPiecesAt '\n' code = lines.map (CodeLine.row options.indentWidth) ++ [""] ∧
      ∀ line ∈ lines, line.isCode = false →
        target.commentMark.toList <+: line.text.toList := by
  obtain ⟨hvalid, lines, hlines, rfl⟩ := exists_codeLines_of_renderWith h
  have hstay := staysInLine_of_codeLines hspellings hvalid hstatements hentry hlines
  exact ⟨lines, hlines, stringPiecesAt_layout_iff.mpr fun line hline => (hstay line hline).1,
    fun line hline => (hstay line hline).2⟩

end Block

end Program

namespace Block

/-- A function in a region of its own, which puts out a drawn number with a text, and a loop without
statements that calls it. -/
def labelledRoll : Block :=
  .ofNodes [
    ⟨⟨"1", .region, [" the dice\t"], false, false⟩, .ofNodes [
      ⟨⟨"2", .output, ["Random(1, 6)", "\"one \\\"roll\\\"\""], false, false⟩, .nil⟩]⟩,
    ⟨⟨"3", .endRegion, [], false, false⟩, .nil⟩,
    ⟨⟨"4", .whileLoop, ["x ≠ \"y # z\""], false, false⟩, .nil⟩,
    ⟨⟨"5", .endWhile, [], false, false⟩, .nil⟩]

theorem renderWith_physicalLines_labelledRoll :
    OnOneLine ({} : RenderOptions).entryPoint ∧
      (∀ spellings ∈ (none : Option Spellings), ∀ entry ∈ spellings, OnOneLine entry.2) ∧
      (∀ s ∈ labelledRoll.statements, s.OnOneLine) ∧
      ∃ code, labelledRoll.renderWith .python {} none = .ok code ∧
        ∃ lines, labelledRoll.codeLines .python {} none = .ok lines ∧
          stringPiecesAt '\n' code =
            lines.map (CodeLine.row ({} : RenderOptions).indentWidth) ++ [""] ∧
          ∀ line ∈ lines, line.isCode = false →
            Target.python.commentMark.toList <+: line.text.toList := by
  have hspellings : ∀ spellings ∈ (none : Option Spellings), ∀ entry ∈ spellings,
      OnOneLine entry.2 := by
    simp
  have hstatements : ∀ s ∈ labelledRoll.statements, s.OnOneLine := by decide +kernel
  have hcode : labelledRoll.renderWith .python {} none =
      .ok ("import random\n\n# begin: the dice\nprint(random.randint(1, 6), \"one \\\"roll\\\"\")\n"
        ++ "# end: the dice\nwhile x != \"y # z\":\n    pass\n") := by
    decide +kernel
  exact ⟨by decide, hspellings, hstatements, _, hcode,
    renderWith_physicalLines hspellings (by decide) hstatements hcode⟩

/-- A region whose label goes on behind a line feed. -/
def brokenLabel : Block :=
  .ofNodes [
    ⟨⟨"1", .region, ["a\nb"], false, false⟩, .nil⟩,
    ⟨⟨"2", .endRegion, [], false, false⟩, .nil⟩]

/-- A text with a line feed between its quotes. -/
def brokenLiteral : Block :=
  .ofNodes [⟨⟨"1", .output, ["\"a\nb\""], false, false⟩, .nil⟩]

/-- The program has no finding, and in every target its code has other lines than those that were
put out. -/
def BreaksLines (program : Block) : Prop :=
  program.validate = [] ∧
    ∀ target, ∃ code lines, program.renderWith target {} none = .ok code ∧
      program.codeLines target {} none = .ok lines ∧
      stringPiecesAt '\n' code ≠ lines.map (CodeLine.row ({} : RenderOptions).indentWidth) ++ [""]

/-- A line feed in one of the lines that are put out is enough. -/
theorem breaksLines_of_codeLines {program : Block} (hvalid : program.validate = [])
    (hnames : program.unspelled none = [])
    (hlines : ∀ target, ((program.codeLines target {} none).map fun lines =>
      lines.all fun line => decide (OnOneLine line.text)) = .ok false) : program.BreaksLines := by
  refine ⟨hvalid, fun target => ?_⟩
  obtain ⟨lines, hlines, hbroken⟩ := map_eq_ok_iff.mp (hlines target)
  refine ⟨String.join (lines.map (CodeLine.layout ({} : RenderOptions).indentWidth)), lines, ?_,
    hlines, fun hpieces => ?_⟩
  · rw [renderWith_of_checkSpelled hvalid (checkSpelled_of_unspelled hnames), generate, hlines]
    rfl
  · have hall := stringPiecesAt_layout_iff.mp hpieces
    simp only [List.all_eq_false, decide_eq_true_eq] at hbroken
    obtain ⟨line, hline, hbreaks⟩ := hbroken
    exact hbreaks (hall line hline)

/-- What stands behind the line feed becomes a line of its own in both. -/
theorem renderWith_breaks_lines : brokenLabel.BreaksLines ∧ brokenLiteral.BreaksLines := by
  constructor
  all_goals
    refine breaksLines_of_codeLines (by decide +kernel) (by decide +kernel) fun target => ?_
    cases target <;> decide +kernel

/-- The rest of the label stands outside of its comment. -/
example : brokenLabel.renderWith .python {} none = .ok "# begin: a\nb\n# end: a\nb\n" := by
  decide +kernel

end Block

end BlockCode
