/- # Lines in Python

Python has no lines that close blocks. A line that ends in a colon is a header, and the block behind
it is told by its indentation alone. What lines a statement has is said here as far as it matters
for that: where they stand and which of them are headers.
-/

import BlockCode.Proofs.Target.Layout
import BlockCode.Proofs.Target.LineEnds

namespace BlockCode

namespace CodeLine

/-- The text of the line starts with the word. -/
def StartsWith (word : String) (line : CodeLine) : Prop :=
  word.toList <+: line.text.toList

/-- The line starts with the word and ends in a colon. -/
def Heads (word : String) (line : CodeLine) : Prop :=
  line.StartsWith word ∧ EndsInColon line.text

theorem Heads.of_isPrefix {word word' : String} {line : CodeLine}
    (hword : word.toList <+: word'.toList) (h : line.Heads word') : line.Heads word :=
  ⟨hword.trans h.1, h.2⟩

/-- A block belongs behind the line. -/
def IsHeader (line : CodeLine) : Prop :=
  ∃ word ∈ ["if ", "elif ", "else", "while ", "for ", "def "], line.Heads word

/-- The line goes on with a choice. -/
def IsAlternative (line : CodeLine) : Prop :=
  line.Heads "elif " ∨ line.Heads "else"

theorem IsAlternative.isHeader {line : CodeLine} (h : line.IsAlternative) : line.IsHeader := by
  rcases h with h | h
  · exact ⟨"elif ", by simp, h⟩
  · exact ⟨"else", by simp, h⟩

/-- No line starts with two words of which neither starts with the other. -/
theorem Heads.not_isAlternative {word : String} {line : CodeLine}
    (hword : word ∈ ["if ", "while ", "for ", "def "]) (h : line.Heads word) :
    ¬ line.IsAlternative := by
  have hapart : ∀ word ∈ ["if ", "while ", "for ", "def "], ∀ word' ∈ ["elif ", "else"],
      ¬ word.toList <+: word'.toList ∧ ¬ word'.toList <+: word.toList := by
    decide
  have hne {word' : String} (hword' : word' ∈ ["elif ", "else"]) : ¬ line.Heads word' := by
    intro h'
    have hapart := hapart word hword word' hword'
    rcases List.prefix_or_prefix_of_prefix h.1 h'.1 with hprefix | hprefix
    · exact hapart.1 hprefix
    · exact hapart.2 hprefix
  rintro (h' | h')
  · exact hne (by simp) h'
  · exact hne (by simp) h'

theorem Heads.isHeader {word : String} {line : CodeLine}
    (hword : word ∈ ["if ", "while ", "for ", "def "]) (h : line.Heads word) : line.IsHeader := by
  refine ⟨word, ?_, h⟩
  revert hword
  simp only [List.mem_cons]
  tauto

/-- A line of code at the depth that is no header. -/
structure IsPlainAt (depth : Nat) (line : CodeLine) : Prop where
  code : line.isCode = true
  depth : line.depth = depth
  ending : ¬ EndsInColon line.text

/-- A header at the depth that starts with the word. -/
structure HeadsAt (depth : Nat) (word : String) (line : CodeLine) : Prop where
  code : line.isCode = true
  depth : line.depth = depth
  heads : line.Heads word

theorem IsPlainAt.not_isHeader {depth : Nat} {line : CodeLine} (h : line.IsPlainAt depth) :
    ¬ line.IsHeader :=
  fun ⟨_, _, hheads⟩ => h.ending hheads.2

theorem IsPlainAt.not_isAlternative {depth : Nat} {line : CodeLine} (h : line.IsPlainAt depth) :
    ¬ line.IsAlternative := by
  rintro (hheads | hheads) <;> exact h.ending hheads.2

end CodeLine

/-- The text of a slot does not end in a colon. -/
theorem Python.not_endsInColon_text {spellings? : Option Spellings}
    (hspellings : ∀ spellings ∈ spellings?, spellings.Colonless) {slot : String} {e : Expr}
    (h : prepare slot = .ok e) : ¬ EndsInColon ((Target.python.printer spellings?).text e) :=
  Target.not_endsIn_text (by decide) hspellings h

/-- Neither does a text with the text of a slot behind it, where that is set apart. -/
theorem Python.not_endsInColon_append {spellings? : Option Spellings}
    (hspellings : ∀ spellings ∈ spellings?, spellings.Colonless) {text mark slot : String}
    {e : Expr} (hmark : EndsAsExpr mark) (h : prepare slot = .ok e) :
    ¬ EndsInColon (text ++ mark ++ (Target.python.printer spellings?).text e) :=
  not_endsIn_append (hmark.not_endsIn_append (by decide)) (not_endsInColon_text hspellings h)

theorem CodeLine.heads_of_text {word front last : String} {line : CodeLine}
    (hstart : ∃ rest, line.text = word ++ rest) (hend : line.text = front ++ last)
    (hlast : last.toList.getLast? = some ':') : line.Heads word := by
  obtain ⟨rest, hstart⟩ := hstart
  refine ⟨⟨rest.toList, ?_⟩, ?_⟩
  · rw [hstart, String.toList_append]
  · rw [EndsInColon, hend]
    exact endsIn_append hlast

/-- A counting loop has a line that sets its variable if it counts in fractions, and then the line
that its block follows. -/
theorem Python.exists_lines_count {spellings? : Option Spellings}
    (hspellings : ∀ spellings ∈ spellings?, spellings.Colonless) {depth : Nat} {slot : String}
    {direction : Direction} {counter first last step : Expr}
    {own : List CodeLine} (hfirst : prepare slot = .ok first)
    (h : Python.lines (Target.python.printer spellings?)
      (.count direction counter first last step) = .ok own) :
    ∃ front line word, own.map (CodeLine.indent depth) = front ++ [line] ∧
      (∀ l ∈ front, l.IsPlainAt depth) ∧ word ∈ ["while ", "for "] ∧ line.HeadsAt depth word := by
  rw [Python.lines] at h
  split at h
  · cases h
    refine ⟨[_], _, "while ", rfl, ?_, by simp, rfl, rfl, ?_⟩
    · rw [List.forall_mem_singleton]
      exact ⟨rfl, rfl, not_endsInColon_append hspellings (by decide) hfirst⟩
    · refine CodeLine.heads_of_text ?_ rfl rfl
      simp only [CodeLine.indent, String.append_assoc]
      exact ⟨_, rfl⟩
  · obtain ⟨text, htext, ⟨⟩⟩ := bind_eq_ok_iff.mp h
    have hrange : ∃ range, text = "for " ++ (Target.python.printer spellings?).text counter
        ++ " in range(" ++ range ++ "):" := by
      obtain ⟨_, _, htext⟩ := bind_eq_ok_iff.mp htext
      cases direction with
      | up =>
          dsimp only at htext
          split at htext <;> cases htext <;> exact ⟨_, rfl⟩
      | down =>
          obtain ⟨_, _, ⟨⟩⟩ := bind_eq_ok_iff.mp htext
          exact ⟨_, rfl⟩
    obtain ⟨range, rfl⟩ := hrange
    refine ⟨[], _, "for ", rfl, by simp, by simp, rfl, rfl, ?_⟩
    refine CodeLine.heads_of_text ?_ rfl rfl
    simp only [CodeLine.indent, String.append_assoc]
    exact ⟨_, rfl⟩

namespace Statement.Emits

variable {spellings? : Option Spellings} {depth : Nat} {around : List StatementKind}
  {header? : Option Statement} {s : Statement} {lines : List CodeLine}

/-- A statement that neither opens nor closes a block is one line that is no header. -/
theorem plain (hspellings : ∀ spellings ∈ spellings?, spellings.Colonless)
    (hkind : s.kind.isPlain = true) (h : s.Emits .python spellings? depth around header? lines) :
    ∃ line, lines = [line] ∧ line.IsPlainAt depth := by
  obtain ⟨action, own, haction, hown, rfl⟩ := h
  have hfixed {text text' : String} (hend : EndsAsExpr text') :
      CodeLine.IsPlainAt depth (.indent depth { text := text ++ text' }) :=
    ⟨rfl, rfl, hend.not_endsIn_append (by decide)⟩
  have hvalue {text mark slot : String} {e : Expr} (hmark : EndsAsExpr mark)
      (he : prepare slot = .ok e) : CodeLine.IsPlainAt depth
        (.indent depth { text := text ++ mark ++ (Target.python.printer spellings?).text e }) :=
    ⟨rfl, rfl, Python.not_endsInColon_append hspellings hmark he⟩
  rw [Statement.action] at haction
  revert hkind
  cases hs : s.kind with
  | assign =>
      rw [hs] at haction
      obtain ⟨_, _, haction⟩ := bind_eq_ok_iff.mp haction
      obtain ⟨_, he, ⟨⟩⟩ := bind_eq_ok_iff.mp haction
      cases hown
      exact fun _ => ⟨_, rfl, hvalue (by decide) (mapError_eq_ok_iff.mp he)⟩
  | increment | decrement =>
      rw [hs] at haction
      obtain ⟨_, _, haction⟩ := bind_eq_ok_iff.mp haction
      obtain ⟨_, he, ⟨⟩⟩ := bind_eq_ok_iff.mp haction
      cases hdirection : s.direction
      all_goals
        rw [hdirection] at hown
        cases hown
        exact fun _ => ⟨_, rfl, hvalue (by decide) (mapError_eq_ok_iff.mp he)⟩
  | initializeArray =>
      rw [hs] at haction
      obtain ⟨_, _, haction⟩ := bind_eq_ok_iff.mp haction
      obtain ⟨_, _, ⟨⟩⟩ := bind_eq_ok_iff.mp haction
      cases hown
      exact fun _ => ⟨_, rfl, hfixed (by decide)⟩
  | bulkAssign =>
      rw [hs] at haction
      obtain ⟨_, _, haction⟩ := bind_eq_ok_iff.mp haction
      obtain ⟨_, _, ⟨⟩⟩ := bind_eq_ok_iff.mp haction
      cases hown
      exact fun _ => ⟨_, rfl, hfixed (by decide)⟩
  | output | callFunction =>
      rw [hs] at haction
      obtain ⟨_, _, ⟨⟩⟩ := bind_eq_ok_iff.mp haction
      cases hown
      exact fun _ => ⟨_, rfl, hfixed (by decide)⟩
  | breakLoop =>
      rw [hs] at haction
      cases haction
      cases hown
      exact fun _ => ⟨_, rfl, rfl, rfl, (by decide : ¬ EndsInColon "break")⟩
  | _ =>
      intro hkind
      cases hkind

/-- The line of a statement that goes on with a choice is a header. -/
theorem alternative (hkind : s.kind.continuesBlock = true)
    (h : s.Emits .python spellings? depth around header? lines) :
    ∃ line, lines = [line] ∧
      (s.kind = .elseIf ∧ line.HeadsAt depth "elif " ∨
        s.kind = .otherwise ∧ line.HeadsAt depth "else") := by
  obtain ⟨action, own, haction, hown, rfl⟩ := h
  rw [Statement.action] at haction
  revert hkind
  cases hs : s.kind with
  | elseIf =>
      rw [hs] at haction
      obtain ⟨_, _, ⟨⟩⟩ := bind_eq_ok_iff.mp haction
      cases hown
      exact fun _ => ⟨_, rfl, .inl ⟨rfl, rfl, rfl,
        CodeLine.heads_of_text ⟨_, String.append_assoc⟩ rfl rfl⟩⟩
  | otherwise =>
      rw [hs] at haction
      cases haction
      cases hown
      exact fun _ => ⟨_, rfl, .inr ⟨rfl, rfl, rfl,
        (by decide : "else".toList <+: "else:".toList), (by decide : EndsInColon "else:")⟩⟩
  | _ =>
      intro hkind
      cases hkind

/-- The last line of a header starts a block. Only a loop over fractions has another line, in front
of it. -/
theorem header (hspellings : ∀ spellings ∈ spellings?, spellings.Colonless)
    (hkind : s.kind.opensBlock = true) (hregion : s.kind ≠ .region)
    (h : s.Emits .python spellings? depth around header? lines) :
    ∃ front line word, lines = front ++ [line] ∧ (∀ l ∈ front, l.IsPlainAt depth) ∧
      word ∈ ["if ", "while ", "for ", "def "] ∧ line.HeadsAt depth word ∧
      (s.kind = .ifThen → front = [] ∧ word = "if ") := by
  obtain ⟨action, own, haction, hown, rfl⟩ := h
  rw [Statement.action] at haction
  revert hkind
  cases hs : s.kind with
  | ifThen =>
      rw [hs] at haction
      obtain ⟨_, _, ⟨⟩⟩ := bind_eq_ok_iff.mp haction
      cases hown
      exact fun _ => ⟨[], _, "if ", rfl, by simp, by simp,
        ⟨rfl, rfl, CodeLine.heads_of_text ⟨_, String.append_assoc⟩ rfl rfl⟩, by simp⟩
  | whileLoop =>
      rw [hs] at haction
      obtain ⟨_, _, ⟨⟩⟩ := bind_eq_ok_iff.mp haction
      cases hown
      exact fun _ => ⟨[], _, "while ", rfl, by simp, by simp,
        ⟨rfl, rfl, CodeLine.heads_of_text ⟨_, String.append_assoc⟩ rfl rfl⟩, by simp⟩
  | doWhile =>
      rw [hs] at haction
      cases haction
      cases hown
      exact fun _ => ⟨[], _, "while ", rfl, by simp, by simp, ⟨rfl, rfl,
        (by decide : "while ".toList <+: "while True:".toList),
        (by decide : EndsInColon "while True:")⟩, by simp⟩
  | defineFunction =>
      rw [hs] at haction
      obtain ⟨_, _, ⟨⟩⟩ := bind_eq_ok_iff.mp haction
      cases hown
      refine fun _ => ⟨[], _, "def ", rfl, by simp, by simp, ⟨rfl, rfl, ?_⟩, by simp⟩
      refine CodeLine.heads_of_text ?_ rfl rfl
      simp only [CodeLine.indent, String.append_assoc]
      exact ⟨_, rfl⟩
  | forIncrement | forDecrement =>
      rw [hs] at haction
      obtain ⟨counter, _, haction⟩ := bind_eq_ok_iff.mp haction
      obtain ⟨first, hfirst, haction⟩ := bind_eq_ok_iff.mp haction
      obtain ⟨last, _, haction⟩ := bind_eq_ok_iff.mp haction
      obtain ⟨step, _, ⟨⟩⟩ := bind_eq_ok_iff.mp haction
      obtain ⟨front, line, word, hlines, hfront, hword, hline⟩ :=
        Python.exists_lines_count hspellings (mapError_eq_ok_iff.mp hfirst) hown
      refine fun _ => ⟨front, line, word, hlines, hfront, ?_, hline, by simp⟩
      simp only [List.mem_cons] at hword ⊢
      tauto
  | region => exact absurd hs hregion
  | _ =>
      intro hkind
      cases hkind

theorem region (hkind : s.kind = .region)
    (h : s.Emits .python spellings? depth around header? lines) :
    ∃ line, lines = [line] ∧ line.isCode = false := by
  obtain ⟨action, own, haction, hown, rfl⟩ := h
  rw [Statement.action, hkind] at haction
  cases haction
  cases hown
  exact ⟨_, rfl, rfl⟩

/-- A line that closes a block has no code, except at the end of two kinds of loops. A loop over
fractions advances its variable there, and a loop with its test at the end has the test there. -/
theorem closing (hspellings : ∀ spellings ∈ spellings?, spellings.Colonless) {header : Statement}
    (hkind : s.kind.closesBlock = true)
    (h : s.Emits .python spellings? depth around (some header) lines) :
    (s.kind ≠ .endDoWhile ∧ ∀ l ∈ lines, l.isCode = false) ∨
      (s.kind = .endFor ∧ ∃ line, lines = [line] ∧ line.IsPlainAt (depth + 1)) ∨
      (s.kind = .endDoWhile ∧ ∃ test leave, lines = [test, leave] ∧
        test.HeadsAt (depth + 1) "if " ∧ leave.IsPlainAt (depth + 2)) := by
  obtain ⟨action, own, haction, hown, rfl⟩ := h
  rw [Statement.action] at haction
  revert hkind
  cases hs : s.kind with
  | endIf | endWhile | endFunction =>
      rw [hs] at haction
      cases haction
      cases hown
      exact fun _ => .inl ⟨by simp, by simp⟩
  | endRegion =>
      rw [hs] at haction
      obtain ⟨_, ⟨⟩, ⟨⟩⟩ := bind_eq_ok_iff.mp haction
      cases hown
      refine fun _ => .inl ⟨by simp, ?_⟩
      simp [CodeLine.indent, CodeLine.comment, CodeLine.isCode]
  | endDoWhile =>
      rw [hs] at haction
      obtain ⟨_, ⟨⟩, haction⟩ := bind_eq_ok_iff.mp haction
      obtain ⟨_, _, ⟨⟩⟩ := bind_eq_ok_iff.mp haction
      cases hown
      refine fun _ => .inr (.inr ⟨rfl, _, _, rfl, ⟨rfl, rfl, ?_⟩, rfl, rfl, ?_⟩)
      · exact .of_isPrefix (show "if ".toList <+: "if not ".toList by decide)
          (CodeLine.heads_of_text ⟨_, String.append_assoc⟩ rfl rfl)
      · exact (by decide : ¬ EndsInColon "break")
  | endFor =>
      rw [hs] at haction
      obtain ⟨footer, hfooter, ⟨⟩⟩ := bind_eq_ok_iff.mp haction
      obtain ⟨_, ⟨⟩, hfooter⟩ := bind_eq_ok_iff.mp hfooter
      obtain ⟨fractional, _, hfooter⟩ := bind_eq_ok_iff.mp hfooter
      cases fractional with
      | false =>
          cases hfooter
          cases hown
          exact fun _ => .inl ⟨by simp, by simp [Python.footer]⟩
      | true =>
          obtain ⟨_, _, hfooter⟩ := bind_eq_ok_iff.mp hfooter
          obtain ⟨_, he, ⟨⟩⟩ := bind_eq_ok_iff.mp hfooter
          refine fun _ => .inr (.inl ⟨rfl, ?_⟩)
          cases hdirection : header.direction
          all_goals
            rw [hdirection] at hown
            cases hown
            exact ⟨_, rfl, rfl, rfl, Python.not_endsInColon_append hspellings (by decide)
              (mapError_eq_ok_iff.mp he)⟩
  | _ =>
      intro hkind
      cases hkind

end Statement.Emits

end BlockCode
