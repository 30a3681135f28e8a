/- # Names in VBA are ASCII

Every name that a program mentions in an expression is among its identifiers, and those that are not
ASCII are resolved to spellings that are. The name of a function that is defined, or called on a
line of its own, is not printed from what its slot reads as but from the text of the slot. Where
that text has no full-width forms it is the name that is read, and so among the identifiers. Then
nothing foreign is left outside of string literals and comments.
-/

import BlockCode.Proofs.Check.Calls
import BlockCode.Proofs.Expr.Width
import BlockCode.Proofs.Program.WellFormed
import BlockCode.Proofs.Target.Rendering
import BlockCode.Proofs.Target.Sources

namespace BlockCode

/-- The identifiers of a program are the segments of the names in its expressions. -/
theorem Block.mem_identifiers {program : Block} {s : Statement} (hs : s ∈ program.statements)
    {e part : Expr} (he : e ∈ s.readableExprs) (hpart : part ∈ e.parts) {word : String}
    (hname : part.ownName? = some word) :
    ∀ segment ∈ nameSegments word, segment ∈ program.identifiers := by
  intro segment hsegment
  rw [identifiers, List.mem_mergeSort, List.mem_eraseDups, List.mem_flatMap]
  refine ⟨s, hs, List.mem_flatMap.mpr ⟨e, he, ?_⟩⟩
  rw [Expr.identifiers, List.mem_flatMap]
  exact ⟨word, List.mem_filterMap.mpr ⟨part, hpart, hname⟩, hsegment⟩

namespace Statement

variable {s : Statement} {e : Expr}

/-- What a statement reads is legible, and its names are free. -/
theorem legible_of_mem_readableExprs (he : e ∈ s.readableExprs) :
    (∀ part ∈ e.parts, part.OwnLegible) ∧ checkNames e = .ok () := by
  obtain ⟨slot, -, he⟩ := List.mem_flatMap.mp he
  cases hread : s.readSlot slot with
  | error _ =>
      rw [hread] at he
      cases he
  | ok exprs =>
      rw [hread] at he
      exact legible_of_readSlot hread he

end Statement

namespace Vba

/-- What is known of the spellings of a program that are resolved: they are of the identifiers that
are not ASCII, and they are ASCII themselves. -/
structure Spells (spellings : Spellings) (program : Block) : Prop where
  names : spellings.map Prod.fst = program.nonAsciiIdentifiers
  ascii : spellings.Ascii

section Names

variable {spellings : Spellings} {program : Block} (h : Spells spellings program)

include h

/-- A name whose segments are identifiers of the program is printed in ASCII. -/
theorem isAsciiPhrase_name {word : String} (hword : IsLexeme .name word)
    (hsegments : ∀ segment ∈ nameSegments word, segment ∈ program.identifiers) :
    IsAsciiPhrase ((Target.vba.printer spellings).name word) := by
  refine .intercalate (by decide) (List.forall_mem_map.mpr fun segment hsegment => ?_)
  cases hspelling : spellings.spelling? segment with
  | some spelling =>
      exact .of_isAsciiNamePart (Spellings.spelling?_of_forall
        (P := fun spelling => ∀ c ∈ spelling.toList, isAsciiNamePart c = true) h.ascii hspelling)
  | none =>
      -- An identifier without a spelling is ASCII already.
      have hascii : isAsciiText segment = true := by
        rw [← Bool.not_eq_false]
        intro hforeign
        have hkey : segment ∈ spellings.map Prod.fst := by
          rw [h.names, Block.nonAsciiIdentifiers, List.mem_filter]
          exact ⟨hsegments segment hsegment, by simp [hforeign]⟩
        obtain ⟨entry, hentry, rfl⟩ := List.mem_map.mp hkey
        rw [Spellings.spelling?, List.lookup_eq_none_iff] at hspelling
        simpa using hspelling entry hentry
      obtain ⟨piece, hpiece, rfl⟩ := List.mem_map.mp hsegment
      rw [isAsciiText, List.all_eq_true] at hascii
      refine .of_forall fun c hc => ⟨?_, of_decide_eq_true (hascii c hc)⟩
      rintro rfl
      rw [Option.getD_none, String.toList_ofList] at hc
      exact absurd (hword.isWordChar_of_mem _ (mem_of_mem_piecesAt hpiece hc)) (by decide)

/-- An expression that the program reads is printed in ASCII. -/
theorem isAsciiPhrase_text {s : Statement} (hs : s ∈ program.statements) {e : Expr}
    (he : e ∈ s.readableExprs) : IsAsciiPhrase ((Target.vba.printer spellings).text e) := by
  have hlegible := (Statement.legible_of_mem_readableExprs he).1
  refine isAsciiPhrase_print e fun part hpart => ?_
  have hown := hlegible part hpart
  cases part with
  | number _ text =>
      refine IsAsciiPhrase.of_forall fun c hc => ?_
      rcases hown.isAsciiDigit_of_mem c hc with hdigit | rfl
      · have hname : isAsciiNamePart c = true := by simp [isAsciiNamePart, hdigit]
        exact ⟨ne_of_isAsciiNamePart hname (by decide), lt_of_isAsciiNamePart hname⟩
      · decide
  | name _ word => exact isAsciiPhrase_name h hown (Block.mem_identifiers hs he hpart rfl)
  | call _ word => exact isAsciiPhrase_name h hown.1 (Block.mem_identifiers hs he hpart rfl)
  | _ => trivial

end Names

/-! ## Statements -/

/-- What a statement is about is printed in ASCII: its expressions, and its function by the text of
the slot. A label stands on one line. -/
structure SpelledStatement (p : ExprPrinter) (s : Statement) : Prop where
  checked : s.Checked
  exprs : ∀ e ∈ s.readableExprs, IsAsciiPhrase (p.text e)
  name : s.kind = .defineFunction ∨ s.kind = .callFunction → IsAsciiPhrase (p.name (s.plainSlot 0))
  label : s.kind = .region → '\n' ∉ (s.plainSlot 0).toList

namespace SpelledStatement

variable {p : ExprPrinter} {s : Statement}

/-- The action of a statement that is spelled in ASCII is so too, where the header of the block that
the statement closes is. -/
theorem action (h : SpelledStatement p s) {loop? : Option StatementKind}
    {header? : Option Statement} {action : Action}
    (hfits : s.kind.closesBlock = true → s.kind.Follows (header?.map Statement.kind))
    (hheader : ∀ header ∈ header?, SpelledStatement p header)
    (haction : s.action .vba loop? header? = .ok action) : SpelledAction p action := by
  have hfrom := Statement.action_from h.checked (fun header hmem => (hheader header hmem).checked)
    hfits haction
  have hspelled : ∀ source ∈ s :: header?.toList, SpelledStatement p source := by
    rw [List.forall_mem_cons]
    exact ⟨h, fun header hmem => hheader header (Option.mem_toList.mp hmem)⟩
  refine ⟨fun e he => ?_, fun name hname => ?_, fun label hlabel => ?_⟩
  · obtain ⟨source, hsource, he⟩ := hfrom.exprs e he
    exact (hspelled source hsource).exprs e he
  · obtain ⟨source, hsource, hkind, rfl⟩ := hfrom.name name hname
    exact (hspelled source hsource).name hkind
  · obtain ⟨source, hsource, hkind, rfl⟩ := hfrom.label label hlabel
    exact (hspelled source hsource).label hkind

end SpelledStatement

/-! ## Lines of a program -/

/-- The lines of one statement. -/
theorem readsAscii_of_emits {spellings : Spellings} {depth : Nat} {around : List StatementKind}
    {header? : Option Statement} {lines : List CodeLine} {s : Statement}
    (h : SpelledStatement (Target.vba.printer spellings) s)
    (hheader : ∀ header ∈ header?, SpelledStatement (Target.vba.printer spellings) header)
    (hfits : s.kind.closesBlock = true → s.kind.Follows (header?.map Statement.kind))
    (hlines : s.Emits .vba spellings depth around header? lines) :
    ∀ line ∈ lines, ReadsAscii line := by
  obtain ⟨action, own, haction, hown, rfl⟩ := hlines
  rw [List.forall_mem_map]
  exact (h.action hfits hheader haction).readsAscii_lines hown

/-- The line that opens the procedure around a program. -/
theorem readsAscii_entryLine {name : String} (h : isAsciiText name = true) :
    ReadsAscii (entryLine name) := by
  refine isAsciiCode_of_isAsciiText ?_
  rw [isAsciiText] at h
  simp [entryLine, isAsciiText, h]

end Vba

/-- The spellings of a program are those that are resolved. -/
theorem SpellingSession.spellingsFor_eq_ok {session : SpellingSession} {speller : Speller}
    {program : Block} {spellings : Spellings}
    (h : (session.resolveProgram speller program).1 = .ok spellings) :
    (session.spellingsFor speller program).1 = .ok spellings := by
  change (session.resolveProgram speller program).1.mapError RenderError.spelling = _
  rw [h]
  rfl

namespace Block

variable {program : Block} {spellings : Spellings} {options : RenderOptions}

/-- The lines of a program whose statements are spelled in ASCII, and the procedure around those
that stand in no function. -/
theorem readsAscii_codeLines (horderly : program.Orderly none) (hscoped : program.Scoped)
    (hspelled : ∀ s ∈ program.statements, Vba.SpelledStatement (Target.vba.printer spellings) s)
    (hentry : isAsciiText options.entryPoint = true) {lines : List CodeLine}
    (h : program.codeLines .vba options spellings = .ok lines) :
    ∀ line ∈ lines, Vba.ReadsAscii line := by
  refine forall_mem_codeLines horderly hscoped ?_ (by simp [Target.emptyBody?])
    Vba.readsAscii_of_emits hspelled h
  simp only [Target.frameLines, List.forall_mem_cons]
  exact ⟨by decide, Vba.readsAscii_entryLine hentry, by decide, by simp⟩

/-- In a program without findings, the name of a function that is defined or called on a line of its
own is read as a name. -/
theorem exists_functionName (hvalid : program.validate = []) {s : Statement}
    (hs : s ∈ program.statements) (hkind : s.kind = .defineFunction ∨ s.kind = .callFunction) :
    ∃ span word,
      prepare (s.slot 0) = .ok (.name span word) ∧ .name span word ∈ s.readableExprs := by
  obtain ⟨line, hline, rfl⟩ := exists_line_of_mem hs
  have hfaults := faults_of_validate hvalid line hline
  have harity : line.statement.kind.arity? = some 2 := by
    rcases hkind with hkind | hkind <;> rw [hkind] <;> rfl
  have htarget : line.kind.writeTarget? 0 = some .name := by
    rw [Line.kind]
    rcases hkind with hkind | hkind <;> rw [hkind] <;> rfl
  have hslot : 0 ∈ line.statement.expressionSlots := by
    refine (Line.checked_of_faults hfaults).mem_expressionSlots harity (by decide) fun hregion => ?_
    rw [hregion] at harity
    cases harity
  obtain ⟨e, hread, hadmits⟩ := Line.exists_admits_of_faults hfaults hslot rfl htarget
  cases e with
  | name span word =>
      have hone : line.statement.readSlot 0 = .ok [.name span word] := by
        rw [Statement.readSlot, if_neg (by simp [StatementKind.isListSlot]), hread]
        rfl
      exact ⟨span, word, hread, Statement.mem_readableExprs hslot hone (.head _)⟩
  | _ => cases hadmits

/-- So it is typed in characters of names, but for their width. -/
theorem isWordChar_of_mem_functionName (hvalid : program.validate = []) {s : Statement}
    (hs : s ∈ program.statements) (hkind : s.kind = .defineFunction ∨ s.kind = .callFunction) :
    ∀ c ∈ (s.plainSlot 0).toList, isWordChar (foldWidth c) = true := by
  obtain ⟨span, word, hread, hreadable⟩ := exists_functionName hvalid hs hkind
  have hlexeme : IsLexeme .name word :=
    (Statement.legible_of_mem_readableExprs hreadable).1 _ (Expr.mem_parts_self _)
  intro c hc
  refine hlexeme.isWordChar_of_mem _ ?_
  rw [← map_foldWidth_trim hread]
  exact List.mem_map_of_mem (f := foldWidth) hc

/-- The statements of a program without findings are spelled in ASCII, where its functions are typed
without full-width forms and its labels on one line. -/
theorem spelledStatement_of_validate (hvalid : program.validate = [])
    (hspells : Vba.Spells spellings program)
    (hnames : ∀ s ∈ program.statements, s.kind = .defineFunction ∨ s.kind = .callFunction →
      HalfWidth (s.plainSlot 0).toList)
    (hlabels : ∀ s ∈ program.statements, s.kind = .region → '\n' ∉ (s.plainSlot 0).toList) :
    ∀ s ∈ program.statements, Vba.SpelledStatement (Target.vba.printer spellings) s := by
  intro s hs
  have hchecked := checked_of_validate hvalid s hs
  refine ⟨hchecked, fun e he => Vba.isAsciiPhrase_text hspells hs he, fun hkind => ?_, hlabels s hs⟩
  obtain ⟨span, word, hread, hmem⟩ := exists_functionName hvalid hs hkind
  have hword : s.plainSlot 0 = word := by
    have hfolded : (s.plainSlot 0).toList.map foldWidth = word.toList := map_foldWidth_trim hread
    rw [List.map_congr_left (g := id) (hnames s hs hkind), List.map_id] at hfolded
    exact String.toList_injective hfolded
  rw [hword]
  have hlexeme := (Statement.legible_of_mem_readableExprs hmem).1 _ (Expr.mem_parts_self _)
  exact Vba.isAsciiPhrase_name hspells hlexeme (mem_identifiers hs hmem (Expr.mem_parts_self _) rfl)

/-- A program without findings is rendered, where all its names are resolved. -/
theorem renderWith_eq_generate {target : Target} (hvalid : program.validate = [])
    (hnames : spellings.map Prod.fst = program.nonAsciiIdentifiers) :
    program.renderWith target options spellings = program.generate target options spellings :=
  renderWith_of_checkSpelled hvalid (checkSpelled_eq_ok hnames) options

/-- A program that is rendered has no findings, and its code is what its lines are laid out as. -/
theorem exists_codeLines_of_renderWith {target : Target} {spellings? : Option Spellings}
    {code : String} (h : program.renderWith target options spellings? = .ok code) :
    program.validate = [] ∧ ∃ lines, program.codeLines target options spellings? = .ok lines ∧
      code = String.join (lines.map (CodeLine.layout options.indentWidth)) := by
  obtain ⟨_, hcheck, h⟩ := bind_eq_ok_iff.mp h
  have hvalid : program.validate = [] := by
    rw [checkValid] at hcheck
    split at hcheck
    · assumption
    · cases hcheck
  obtain ⟨_, -, h⟩ := bind_eq_ok_iff.mp h
  obtain ⟨lines, hlines, rfl⟩ := map_eq_ok_iff.mp h
  exact ⟨hvalid, lines, hlines, rfl⟩

/-- Names in VBA are ASCII. A program without findings is rendered with its names spelled by code
points, unless a counting loop in it overflows. With any entry point that is ASCII, the lines of
code have only ASCII characters outside of string literals, and every other line is a comment. This
is so where the functions that are defined, or called on a line of their own, are typed without
full-width forms, and where each label stands on one line. -/
theorem renderWith_vba_ascii (hvalid : program.validate = [])
    (hnames : ∀ s ∈ program.statements, s.kind = .defineFunction ∨ s.kind = .callFunction →
      HalfWidth (s.plainSlot 0).toList)
    (hlabels : ∀ s ∈ program.statements, s.kind = .region → '\n' ∉ (s.plainSlot 0).toList)
    (hentry : isAsciiText options.entryPoint = true) :
    ∃ spellings,
      (({} : SpellingSession).spellingsFor codePointSpeller program).1 = .ok spellings ∧
        ((∃ lines, program.codeLines .vba options spellings = .ok lines ∧
            program.renderWith .vba options spellings =
              .ok (String.join (lines.map (CodeLine.layout options.indentWidth))) ∧
            ∀ line ∈ lines, Vba.ReadsAscii line) ∨
          (∃ operation,
            program.renderWith .vba options spellings = .error (.overflow operation)) ∧
          ∃ s ∈ program.statements, s.OverflowsIn .vba) := by
  obtain ⟨spellings, hresolve, hkeys, hlettered, hascii⟩ :=
    exists_spellingsFor_codePointSpeller program
  have hform := wellFormed_of_validate hvalid
  have hrender : program.renderWith .vba options spellings =
      (program.codeLines .vba options spellings).map fun lines =>
        String.join (lines.map (CodeLine.layout options.indentWidth)) :=
    renderWith_eq_generate hvalid hkeys
  refine ⟨spellings, SpellingSession.spellingsFor_eq_ok hresolve, ?_⟩
  have hcodeLines : OverflowsOnlyIf (program.codeLines .vba options spellings)
      (program.OverflowsIn .vba) :=
    (document_overflowsOnlyIf (by rintro _ ⟨⟩; exact hlettered) hform.orderly
      (checked_of_validate hvalid) options).map
  rcases hcodeLines with ⟨lines, hcode⟩ | ⟨⟨operation, hcode⟩, hcause⟩
  · refine .inl ⟨lines, hcode, ?_, ?_⟩
    · rw [hrender, hcode]
      rfl
    · exact readsAscii_codeLines hform.orderly hform.scoped
        (spelledStatement_of_validate hvalid ⟨hkeys, hascii⟩ hnames hlabels) hentry hcode
  · refine .inr ⟨⟨operation, ?_⟩, hcause⟩
    rw [hrender, hcode]
    rfl

/-- A function with foreign names that puts out a foreign text, and a call of it in a region with a
foreign label. -/
def labelledSum : Block :=
  .ofNodes [
    ⟨⟨"1", .defineFunction, ["合計 ", "値, x"], false, false⟩,
      .ofNodes [⟨⟨"2", .output, ["\"結果は\"", "値 + x"], false, false⟩, .nil⟩]⟩,
    ⟨⟨"3", .endFunction, [], false, false⟩, .nil⟩,
    ⟨⟨"4", .region, ["集計"], false, false⟩,
      .ofNodes [⟨⟨"5", .callFunction, ["合計", "1, 2"], false, false⟩, .nil⟩]⟩,
    ⟨⟨"6", .endRegion, [], false, false⟩, .nil⟩]

theorem renderWith_vba_ascii_labelledSum :
    labelledSum.validate = [] ∧
      (∀ s ∈ labelledSum.statements, s.kind = .defineFunction ∨ s.kind = .callFunction →
        HalfWidth (s.plainSlot 0).toList) ∧
      (∀ s ∈ labelledSum.statements, s.kind = .region → '\n' ∉ (s.plainSlot 0).toList) ∧
      isAsciiText ({} : RenderOptions).entryPoint = true ∧
      ∃ spellings,
        (({} : SpellingSession).spellingsFor codePointSpeller labelledSum).1 = .ok spellings ∧
          ((∃ lines, labelledSum.codeLines .vba {} spellings = .ok lines ∧
              labelledSum.renderWith .vba {} spellings =
                .ok (String.join (lines.map (CodeLine.layout ({} : RenderOptions).indentWidth))) ∧
              ∀ line ∈ lines, Vba.ReadsAscii line) ∨
            (∃ operation,
              labelledSum.renderWith .vba {} spellings = .error (.overflow operation)) ∧
            ∃ s ∈ labelledSum.statements, s.OverflowsIn .vba) := by
  have hvalid : labelledSum.validate = [] := by decide +kernel
  have hnames : ∀ s ∈ labelledSum.statements, s.kind = .defineFunction ∨ s.kind = .callFunction →
      HalfWidth (s.plainSlot 0).toList := by
    decide +kernel
  have hlabels : ∀ s ∈ labelledSum.statements, s.kind = .region →
      '\n' ∉ (s.plainSlot 0).toList := by
    decide +kernel
  have hentry : isAsciiText ({} : RenderOptions).entryPoint = true := by decide
  exact ⟨hvalid, hnames, hlabels, hentry, renderWith_vba_ascii hvalid hnames hlabels hentry⟩

/-- What is left foreign is a comment or stands in a string literal. -/
example : labelledSum.generate .vba {} [("値", "v_u5024"), ("合計", "v_u5408_u8a08")] =
    .ok ("Sub v_u5408_u8a08(v_u5024, x)\n"
      ++ "    Debug.Print \"結果は\" & \" \" & v_u5024 + x\nEnd Sub\n\nSub Main()\n"
      ++ "    ' begin: 集計\n    Call v_u5408_u8a08(1, 2)\n    ' end: 集計\nEnd Sub\n") := by
  decide +kernel

/-- A function whose name is typed as a full-width letter. -/
def fullWidthFunction : Block :=
  .ofNodes [
    ⟨⟨"1", .defineFunction, ["ｆ", ""], false, false⟩, .nil⟩,
    ⟨⟨"2", .endFunction, [], false, false⟩, .nil⟩]

/-- The name is read as an ASCII one, so there is nothing to spell, and it is printed as it is
typed. -/
theorem renderWith_vba_foreign_fullWidthFunction :
    fullWidthFunction.validate = [] ∧ isAsciiText ({} : RenderOptions).entryPoint = true ∧
      (({} : SpellingSession).spellingsFor codePointSpeller fullWidthFunction).1 = .ok [] ∧
      fullWidthFunction.renderWith .vba {} (some []) =
        .ok "Sub ｆ()\nEnd Sub\n\nSub Main()\nEnd Sub\n" ∧
      ∃ lines, fullWidthFunction.codeLines .vba {} (some []) = .ok lines ∧
        ∃ line ∈ lines, line.isCode = true ∧ ¬ Vba.IsAsciiCode line.text := by
  have hlines : fullWidthFunction.codeLines .vba {} (some []) = .ok [
      { text := "Sub ｆ()" }, { text := "End Sub" }, { text := "" }, Vba.entryLine "Main",
      Vba.exitLine] := by
    decide +kernel
  exact ⟨by decide +kernel, by decide, by decide +kernel, by decide +kernel, _, hlines, _, .head _,
    by decide, by decide +kernel⟩

/-- A label on two lines goes on behind its comment. -/
example : (ofNodes [
      ⟨⟨"1", .region, ["a\n値"], false, false⟩, .nil⟩,
      ⟨⟨"2", .endRegion, [], false, false⟩, .nil⟩]).renderWith .vba {} (some []) =
    .ok "Sub Main()\n    ' begin: a\n値\n    ' end: a\n値\nEnd Sub\n" := by
  decide +kernel

end Block

end BlockCode
