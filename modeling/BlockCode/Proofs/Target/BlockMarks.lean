/- # Marks of blocks

JavaScript, Ruby and VBA show by the words and braces of a line whether it opens a block, goes on
with one or closes one. Here a line is read for these marks alone, without regard to where it comes
from: a line that opens a block says what word has to close it, and a line that closes one says with
what word it does. A loop that VBA writes on one line closes itself.

No name of a program is taken for such a word, because all of them are reserved, and no expression
ends in the bar that a counting loop of Ruby ends in.
-/

import BlockCode.Proofs.Target.LineStarts

namespace BlockCode

/-- The part that a line has in the blocks of the code. -/
inductive BlockMark where
  | plain
  /-- A block is open behind the line until it is closed with the word. -/
  | opening (closer : String)
  | continuing
  | closing (closer : String)
  deriving DecidableEq, Repr

/-- The text ends with the other one. -/
def EndsWith (last text : String) : Prop :=
  last.toList <:+ text.toList

instance (last text : String) : Decidable (EndsWith last text) :=
  inferInstanceAs (Decidable (_ <:+ _))

/-- Braces open and close blocks. Only a loop with its test at the end has more than a brace
there. -/
def JavaScript.blockMark (text : String) : BlockMark :=
  if StartsWith "//" text then .plain
  else if StartsWith "\x7d" text then
    if EndsIn '\x7b' text then .continuing
    else .closing (if StartsWith "\x7d while " text then "\x7d while" else "\x7d")
  else if EndsIn '\x7b' text then
    .opening (if StartsWith "do " text then "\x7d while" else "\x7d")
  else .plain

/-- What a line shows by its first word and the next one. -/
def Ruby.wordMark (word next : String) : BlockMark :=
  match word with
  | "if" | "while" | "def" => .opening "end"
  | "begin" => .opening "end while"
  | "elsif" | "else" => .continuing
  | "end" => .closing (if next = "while" then "end while" else "end")
  | _ => .plain

/-- A line that ends in the variable of a block opens one, and else the first word decides. -/
def Ruby.blockMark (text : String) : BlockMark :=
  if StartsIn '#' text then .plain
  else if EndsIn '|' text then .opening "end"
  else Ruby.wordMark (headWord text) (headWord (behindWord text))

/-- The word as VBA compares it. -/
def Vba.inLower (word : String) : String :=
  String.ofList (lowered word)

/-- What a line shows by its first word and the next one. A conditional statement could stand on one
line as well, and a loop that fills an array does. -/
def Vba.wordMark (word next text : String) : BlockMark :=
  match word with
  | "if" => if EndsWith " Then" text then .opening "End If" else .plain
  | "elseif" | "else" => .continuing
  | "do" => .opening (if next = "while" then "Loop" else "Loop While")
  | "loop" => .closing (if next = "while" then "Loop While" else "Loop")
  | "for" =>
    if next = fillIndex ∧ EndsWith (": Next " ++ fillIndex) text then .plain else .opening "Next"
  | "next" => .closing "Next"
  | "sub" => .opening "End Sub"
  | "end" =>
    if next = "if" then .closing "End If" else if next = "sub" then .closing "End Sub" else .plain
  | _ => .plain

/-- The first word decides, in any case. The word that a block is closed with differs from one kind
of block to another. -/
def Vba.blockMark (text : String) : BlockMark :=
  Vba.wordMark (Vba.inLower (headWord text)) (Vba.inLower (headWord (behindWord text))) text

/-- The part that a line of the target has in the blocks of the code, by its text alone. Python has
no words that close blocks. -/
def Target.blockMark (target : Target) (text : String) : BlockMark :=
  match target with
  | .javaScript => JavaScript.blockMark text
  | .python => .plain
  | .vba => Vba.blockMark text
  | .ruby => Ruby.blockMark text

/-- What a block is closed with, by the kind of the statement that closes it. -/
def Target.closer (target : Target) (closing : StatementKind) : String :=
  match target, closing with
  | .javaScript, .endDoWhile => "\x7d while"
  | .javaScript, _ => "\x7d"
  | .ruby, .endDoWhile => "end while"
  | .ruby, _ => "end"
  | .vba, .endIf => "End If"
  | .vba, .endWhile => "Loop"
  | .vba, .endDoWhile => "Loop While"
  | .vba, .endFor => "Next"
  | .vba, .endFunction => "End Sub"
  | _, _ => ""

/-- The mark that belongs to the line of a statement of the kind. Regions are comments. -/
def StatementKind.blockMark (kind : StatementKind) (target : Target) : BlockMark :=
  match kind with
  | .ifThen => .opening (target.closer .endIf)
  | .whileLoop => .opening (target.closer .endWhile)
  | .doWhile => .opening (target.closer .endDoWhile)
  | .forIncrement | .forDecrement => .opening (target.closer .endFor)
  | .defineFunction => .opening (target.closer .endFunction)
  | .elseIf | .otherwise => .continuing
  | .endIf | .endWhile | .endDoWhile | .endFor | .endFunction => .closing (target.closer kind)
  | _ => .plain

/-- What the action writes to. -/
def Action.written? : Action → Option Expr
  | .assign _ target _ | .initializeArray target _ | .fillArray target _ | .change _ target _
  | .count _ target .. => some target
  | _ => none

/-! ## Reading a line -/

section

variable {front text more : String}

theorem EndsIn.not_endsIn {c mark : Char} (h : EndsIn c text) (hne : c ≠ mark) :
    ¬ EndsIn mark text :=
  fun h' => hne (Option.some.inj (h.symm.trans h'))

theorem EndsIn.ne_empty {c : Char} (h : EndsIn c text) : text ≠ "" := by
  rintro rfl
  cases h

theorem ne_empty_of_headWord (h : headWord text ≠ "") : text ≠ "" := by
  rintro rfl
  exact h rfl

theorem ne_empty_append (h : front ≠ "") (more : String) : front ++ more ≠ "" :=
  fun hempty => h (String.append_eq_empty_iff.mp hempty).1

/-- The front of a line starts with a whole word, and something of the front stands behind it. -/
structure Fronted (front word behind : String) : Prop where
  headWord_eq : headWord front = word
  behindWord_eq : behindWord front = behind
  word_ne : word ≠ ""
  behind_ne : behind ≠ ""

instance (front word behind : String) : Decidable (Fronted front word behind) :=
  decidable_of_iff
    ((headWord front = word ∧ behindWord front = behind) ∧ word ≠ "" ∧ behind ≠ "")
    ⟨fun ⟨⟨hword, hbehind⟩, hne, hne'⟩ => ⟨hword, hbehind, hne, hne'⟩,
      fun ⟨hword, hbehind, hne, hne'⟩ => ⟨⟨hword, hbehind⟩, hne, hne'⟩⟩

/-- What follows the front changes nothing of its word. -/
theorem Fronted.append {word behind : String} (h : Fronted front word behind) (more : String) :
    headWord (front ++ more) = word ∧ behindWord (front ++ more) = behind ++ more := by
  obtain ⟨rfl, rfl, hne, hne'⟩ := h
  exact headWord_append_of_behindWord hne hne' more

theorem Fronted.append_ne_empty {word behind : String} (h : Fronted front word behind)
    (more : String) : front ++ more ≠ "" :=
  ne_empty_of_headWord ((h.append more).1 ▸ h.word_ne)

theorem headWord_blank (text : String) : headWord (" " ++ text) = headWord text := by
  rw [headWord, headWord, String.toList_append]
  exact congrArg _ (congrArg _ (List.dropWhile_cons_of_pos (by decide)))

end

/-! ## Lines in JavaScript -/

namespace JavaScript

theorem blockMark_plain {text : String} (hstart : ¬ StartsWith "\x7d" text)
    (hend : EndsIn ';' text) : text ≠ "" ∧ blockMark text = .plain := by
  refine ⟨hend.ne_empty, ?_⟩
  by_cases hcomment : StartsWith "//" text
  · rw [blockMark, if_pos hcomment]
  · rw [blockMark, if_neg hcomment, if_neg hstart, if_neg (hend.not_endsIn (by decide))]

theorem blockMark_comment (text : String) :
    "//" ++ text ≠ "" ∧ blockMark ("//" ++ text) = .plain := by
  rw [blockMark, if_pos ((startsWith_append (by decide)).mpr (by decide))]
  exact ⟨ne_empty_append (by decide) _, rfl⟩

theorem blockMark_opening {front : String}
    (hfront : front ∈ ["if ", "while ", "for (let ", "function "]) {text : String}
    (hend : EndsIn '\x7b' (front ++ text)) :
    front ++ text ≠ "" ∧ blockMark (front ++ text) = .opening "\x7d" := by
  have hall : ∀ front ∈ ["if ", "while ", "for (let ", "function "],
      ∀ word ∈ ["//", "\x7d", "do "], word.toList.length ≤ front.toList.length ∧
        ¬ StartsWith word front := by
    decide
  have hnot (word : String) (hword : word ∈ ["//", "\x7d", "do "]) :
      ¬ StartsWith word (front ++ text) := by
    obtain ⟨hlength, hne⟩ := hall front hfront word hword
    rwa [startsWith_append hlength]
  rw [blockMark, if_neg (hnot "//" (by decide)), if_neg (hnot "\x7d" (by decide)), if_pos hend,
    if_neg (hnot "do " (by decide))]
  exact ⟨hend.ne_empty, rfl⟩

theorem blockMark_continuing {text : String} (hcomment : ¬ StartsWith "//" text)
    (hstart : StartsWith "\x7d" text) (hend : EndsIn '\x7b' text) :
    text ≠ "" ∧ blockMark text = .continuing := by
  rw [blockMark, if_neg hcomment, if_pos hstart, if_pos hend]
  exact ⟨hend.ne_empty, rfl⟩

theorem blockMark_footer {text : String} (hcomment : ¬ StartsWith "//" text)
    (hstart : StartsWith "\x7d while " text) (hend : EndsIn ';' text) :
    text ≠ "" ∧ blockMark text = .closing "\x7d while" := by
  have hbrace : StartsWith "\x7d" text :=
    List.IsPrefix.trans (by decide : "\x7d".toList <+: "\x7d while ".toList) hstart
  rw [blockMark, if_neg hcomment, if_pos hbrace, if_neg (hend.not_endsIn (by decide)),
    if_pos hstart]
  exact ⟨hend.ne_empty, rfl⟩

/-- No brace stands in front of a name of the program. -/
theorem not_startsWith_of_free {front mark : String} (h : StartsFree front)
    (hmark : mark.toList.head?.any (fun c => !isWordPart c) = true) (more : String) :
    ¬ StartsWith "\x7d" (front ++ (mark ++ more)) :=
  not_startsWith_of_headWord (h.followed hmark more).word (by rintro _ ⟨⟩; decide) (by decide)

theorem blockMark_loopHeader (p : ExprPrinter) (direction : Direction)
    (counter first last step : Expr) :
    loopHeader p direction counter first last step ≠ "" ∧
      blockMark (loopHeader p direction counter first last step) = .opening "\x7d" := by
  have hend : EndsIn '\x7b' (loopHeader p direction counter first last step) := by
    unfold loopHeader
    exact endsIn_append (by decide)
  obtain ⟨more, hmore⟩ : ∃ more,
      loopHeader p direction counter first last step = "for (let " ++ more := by
    unfold loopHeader
    simp only [String.append_assoc]
    exact ⟨_, rfl⟩
  rw [hmore] at hend ⊢
  exact blockMark_opening (by decide) hend

/-- The one line of an action, with its mark. -/
theorem exists_line {p : ExprPrinter} {action : Action}
    (hwritten : ∀ e ∈ action.written?, StartsFree (p.text e))
    (hname : ∀ name ∈ Vba.functionName? action, StartsFree (p.name name)) :
    ∃ line, lines p action = [line] ∧ line.depth = 0 ∧ line.text ≠ "" ∧
      blockMark line.text = action.kind.blockMark .javaScript := by
  cases action with
  | assign constant target value =>
      refine ⟨_, rfl, rfl, blockMark_plain ?_ (endsIn_append rfl)⟩
      cases constant with
      | false =>
          simp only [String.append_assoc]
          rw [if_neg Bool.false_ne_true, String.empty_append]
          exact not_startsWith_of_free (hwritten target rfl) (by decide) _
      | true =>
          simp only [String.append_assoc]
          rw [startsWith_append (by decide)]
          decide
  | initializeArray target | fillArray target =>
      refine ⟨_, rfl, rfl, blockMark_plain ?_ (endsIn_append rfl)⟩
      simp only [String.append_assoc]
      exact not_startsWith_of_free (hwritten target rfl) (by decide) _
  | change direction target =>
      cases direction
      all_goals
        refine ⟨_, rfl, rfl, blockMark_plain ?_ (endsIn_append rfl)⟩
        simp only [String.append_assoc]
        exact not_startsWith_of_free (hwritten target rfl) (by decide) _
  | callFunction name =>
      refine ⟨_, rfl, rfl, blockMark_plain ?_ (endsIn_append rfl)⟩
      simp only [String.append_assoc]
      exact not_startsWith_of_free (hname name rfl) (by decide) _
  | output =>
      refine ⟨_, rfl, rfl, blockMark_plain ?_ (endsIn_append rfl)⟩
      simp only [String.append_assoc]
      rw [startsWith_append (by decide)]
      decide
  | leaveLoop => exact ⟨_, rfl, rfl, blockMark_plain (by decide) (by decide)⟩
  | ifThen | whileLoop =>
      refine ⟨_, rfl, rfl, ?_⟩
      simp only [String.append_assoc]
      exact blockMark_opening (by decide) (endsIn_append (endsIn_append (by decide)))
  | defineFunction name parameters =>
      refine ⟨_, rfl, rfl, ?_⟩
      simp only [String.append_assoc]
      exact blockMark_opening (by decide)
        (endsIn_append (endsIn_append (endsIn_append (endsIn_append (by decide)))))
  | count direction counter first last step =>
      have hline := blockMark_loopHeader p direction counter first last step
      cases direction <;> exact ⟨_, rfl, rfl, hline⟩
  | doWhile | otherwise | endIf | endWhile | endFunction =>
      exact ⟨_, rfl, rfl, (by decide), (by decide)⟩
  | endCount =>
      exact ⟨_, rfl, rfl, (by decide : "\x7d" ≠ ""),
        (by decide : blockMark "\x7d" = .closing "\x7d")⟩
  | elseIf e =>
      refine ⟨_, rfl, rfl, ?_⟩
      simp only [String.append_assoc]
      have hend : EndsIn '\x7b' ("\x7d else if " ++ (condition p e ++ " \x7b")) :=
        endsIn_append (endsIn_append rfl)
      refine blockMark_continuing ?_ (StartsWith.append (by decide)) hend
      rw [startsWith_append (by decide)]
      decide
  | endDoWhile e =>
      refine ⟨_, rfl, rfl, ?_⟩
      simp only [String.append_assoc]
      have hend : EndsIn ';' ("\x7d while " ++ (condition p e ++ ";")) :=
        endsIn_append (endsIn_append rfl)
      refine blockMark_footer ?_ (StartsWith.append (by decide)) hend
      rw [startsWith_append (by decide)]
      decide
  | region label | endRegion label =>
      refine ⟨_, rfl, rfl, ?_⟩
      rw [CodeLine.comment, String.append_assoc]
      exact blockMark_comment _

end JavaScript

/-! ## Lines in VBA -/

namespace Vba

/-- The words that a line with a mark starts with. -/
def blockWords : List String :=
  ["if", "elseif", "else", "do", "loop", "for", "next", "sub", "end"]

theorem wordMark_of_notMem {word : String} (h : word ∉ blockWords) (next text : String) :
    wordMark word next text = .plain := by
  unfold wordMark
  split <;> first | rfl | exact absurd (by decide) h

/-- A word that is not reserved is none of them, and not the variable of a loop that fills an array
either. -/
theorem inLower_notMem {word : String} (h : isReserved word = false) :
    inLower word ∉ fillIndex :: blockWords := by
  have hall : ∀ key ∈ fillIndex :: blockWords, inLower key = key ∧ isReserved key = true := by
    decide +kernel
  intro hmem
  obtain ⟨hkey, hreserved⟩ := hall _ hmem
  have hlowered : lowered (inLower word) = lowered word :=
    (String.ofList_injective hkey)
  rw [isReserved_congr hlowered, h] at hreserved
  cases hreserved

theorem blockMark_of_free {text : String} (h : isReserved (headWord text) = false) :
    blockMark text = .plain :=
  wordMark_of_notMem (fun hmem => inLower_notMem h (.tail _ hmem)) _ _

/-- A line that starts with a name of the program. -/
theorem blockMark_of_startsFree {front mark : String} (h : StartsFree front)
    (hmark : mark.toList.head?.any (fun c => !isWordPart c) = true) (more : String) :
    front ++ (mark ++ more) ≠ "" ∧ blockMark (front ++ (mark ++ more)) = .plain :=
  have hline := h.followed hmark more
  ⟨ne_empty_of_headWord hline.word, blockMark_of_free hline.free⟩

section

variable {front word behind : String}

/-- The mark of a line that starts with a fixed word. -/
theorem blockMark_of_front (h : Fronted front word behind) (more : String) :
    front ++ more ≠ "" ∧ blockMark (front ++ more) =
      wordMark (inLower word) (inLower (headWord (behind ++ more))) (front ++ more) := by
  obtain ⟨hhead, hrest⟩ := h.append more
  rw [blockMark, hhead, hrest]
  exact ⟨h.append_ne_empty more, rfl⟩

theorem blockMark_of_plainFront (h : Fronted front word behind) (hword : inLower word ∉ blockWords)
    (more : String) : front ++ more ≠ "" ∧ blockMark (front ++ more) = .plain := by
  obtain ⟨hne, hmark⟩ := blockMark_of_front h more
  exact ⟨hne, hmark.trans (wordMark_of_notMem hword _ _)⟩

/-- A front that has the test of a loop behind its word. -/
theorem blockMark_of_testFront (h : Fronted front word " While ") (more : String) :
    front ++ more ≠ "" ∧
      blockMark (front ++ more) = wordMark (inLower word) "while" (front ++ more) := by
  obtain ⟨hne, hmark⟩ := blockMark_of_front h more
  rw [((by decide : Fronted " While " "While" " ").append more).1] at hmark
  exact ⟨hne, hmark⟩

end

/-- A counting loop opens a block unless it is the one that fills an array. -/
theorem wordMark_for (next text : String) : wordMark (inLower "For") next text =
    if next = fillIndex ∧ EndsWith (": Next " ++ fillIndex) text then .plain
    else .opening "Next" :=
  rfl

theorem blockMark_comment (text : String) :
    "\'" ++ text ≠ "" ∧ blockMark ("\'" ++ text) = .plain := by
  have htext : ("\'" ++ text).toList = [] ++ ([] ++ '\'' :: text.toList) := by
    rw [String.toList_append]
    rfl
  obtain ⟨hhead, -⟩ := headWord_eq htext (by simp) (by rintro _ ⟨⟩; decide) (by simp)
    (by rintro _ ⟨⟩; decide)
  exact ⟨ne_empty_append (by decide) _, blockMark_of_free (hhead ▸ by decide)⟩

theorem endsWith_append {last front : String} : EndsWith last (front ++ last) := by
  rw [EndsWith, String.toList_append]
  exact List.suffix_append _ _

/-- The loop that fills an array closes itself. -/
theorem blockMark_fillLoop (target value : String) :
    fillLoop target value ≠ "" ∧ blockMark (fillLoop target value) = .plain := by
  obtain ⟨more, hmore⟩ : ∃ more,
      fillLoop target value = "For " ++ (fillIndex ++ (" = LBound(" ++ more)) := by
    unfold fillLoop
    simp only [String.append_assoc]
    exact ⟨_, rfl⟩
  have hend : EndsWith (": Next " ++ fillIndex) (fillLoop target value) := by
    unfold fillLoop
    rw [String.append_assoc]
    exact endsWith_append
  have hnext : headWord (" " ++ (fillIndex ++ (" = LBound(" ++ more))) = fillIndex := by
    rw [headWord_blank, headWord_followed (by decide) (by decide)]
    decide
  obtain ⟨hne, hmark⟩ := blockMark_of_front (by decide : Fronted "For " "For" " ")
    (fillIndex ++ (" = LBound(" ++ more))
  rw [hmore] at hend ⊢
  rw [hmark, wordMark_for, hnext, if_pos ⟨by decide, hend⟩]
  exact ⟨hne, rfl⟩

/-- The header of a counting loop names its variable first. -/
theorem exists_text_of_loopHeader {p : ExprPrinter} {direction : Direction}
    {counter first last step : Expr} {text : String}
    (h : loopHeader p direction counter first last step = .ok text) :
    ∃ more, text = "For " ++ (p.text counter ++ (" = " ++ more)) := by
  cases direction with
  | up =>
      rw [loopHeader] at h
      split at h <;> cases h <;> simp only [String.append_assoc] <;> exact ⟨_, rfl⟩
  | down =>
      obtain ⟨_, _, ⟨⟩⟩ := bind_eq_ok_iff.mp h
      simp only [String.append_assoc]
      exact ⟨_, rfl⟩

/-- It opens a block, because its variable is not the one of a loop that fills an array. -/
theorem blockMark_loopHeader {p : ExprPrinter} {direction : Direction}
    {counter first last step : Expr} {text : String} (hcounter : StartsFree (p.text counter))
    (h : loopHeader p direction counter first last step = .ok text) :
    text ≠ "" ∧ blockMark text = .opening "Next" := by
  obtain ⟨more, rfl⟩ := exists_text_of_loopHeader h
  have hnext : inLower (headWord (" " ++ (p.text counter ++ (" = " ++ more)))) ≠ fillIndex := by
    rw [headWord_blank, headWord_followed hcounter.word (by decide)]
    intro hfill
    have hnot := inLower_notMem hcounter.free
    rw [hfill] at hnot
    exact hnot (.head _)
  obtain ⟨hne, hmark⟩ := blockMark_of_front (by decide : Fronted "For " "For" " ")
    (p.text counter ++ (" = " ++ more))
  rw [hmark, wordMark_for, if_neg fun hfill => hnext hfill.1]
  exact ⟨hne, rfl⟩

/-- The one line of an action, with its mark. -/
theorem exists_line {p : ExprPrinter} {action : Action} {own : List CodeLine}
    (hwritten : ∀ e ∈ action.written?, StartsFree (p.text e)) (h : lines p action = .ok own) :
    ∃ line, own = [line] ∧ line.depth = 0 ∧ line.text ≠ "" ∧
      blockMark line.text = action.kind.blockMark .vba := by
  cases action with
  | assign constant target value =>
      cases h
      refine ⟨_, rfl, rfl, ?_⟩
      cases constant with
      | false =>
          simp only [String.append_assoc]
          rw [if_neg Bool.false_ne_true, String.empty_append]
          exact blockMark_of_startsFree (hwritten target rfl) (by decide) _
      | true =>
          simp only [String.append_assoc]
          exact blockMark_of_plainFront (by decide : Fronted "Const " "Const" " ") (by decide) _
  | initializeArray target =>
      cases h
      refine ⟨_, rfl, rfl, ?_⟩
      simp only [String.append_assoc]
      exact blockMark_of_startsFree (hwritten target rfl) (by decide) _
  | fillArray target value =>
      cases h
      exact ⟨_, rfl, rfl, blockMark_fillLoop _ _⟩
  | change direction target =>
      cases h
      cases direction
      all_goals
        refine ⟨_, rfl, rfl, ?_⟩
        simp only [String.append_assoc]
        exact blockMark_of_startsFree (hwritten target rfl) (by decide) _
  | output =>
      cases h
      exact ⟨_, rfl, rfl, blockMark_of_plainFront
        (by decide : Fronted "Debug.Print " "Debug" ".Print ") (by decide) _⟩
  | callFunction =>
      cases h
      refine ⟨_, rfl, rfl, ?_⟩
      simp only [String.append_assoc]
      exact blockMark_of_plainFront (by decide : Fronted "Call " "Call" " ") (by decide) _
  | leaveLoop loop? =>
      cases h
      refine ⟨_, rfl, rfl, ?_⟩
      dsimp only
      split
      · exact ⟨by decide, (by decide : blockMark "Exit For" = .plain)⟩
      · exact ⟨by decide, (by decide : blockMark "Exit Do" = .plain)⟩
  | region | endRegion =>
      cases h
      refine ⟨_, rfl, rfl, ?_⟩
      rw [CodeLine.comment, String.append_assoc]
      exact blockMark_comment _
  | ifThen e =>
      cases h
      obtain ⟨hne, hmark⟩ := blockMark_of_front (by decide : Fronted "If " "If" " ")
        (p.text e ++ " Then")
      rw [← String.append_assoc] at hne hmark
      exact ⟨_, rfl, rfl, hne, hmark.trans (if_pos endsWith_append)⟩
  | elseIf e =>
      cases h
      refine ⟨_, rfl, rfl, ?_⟩
      rw [String.append_assoc]
      exact blockMark_of_front (by decide : Fronted "ElseIf " "ElseIf" " ") _
  | otherwise | endIf | endWhile | doWhile | endFunction =>
      cases h
      exact ⟨_, rfl, rfl, by decide, by decide⟩
  | whileLoop e =>
      cases h
      exact ⟨_, rfl, rfl,
        blockMark_of_testFront (by decide : Fronted "Do While " "Do" " While ") _⟩
  | endDoWhile e =>
      cases h
      exact ⟨_, rfl, rfl,
        blockMark_of_testFront (by decide : Fronted "Loop While " "Loop" " While ") _⟩
  | defineFunction name parameters =>
      cases h
      refine ⟨_, rfl, rfl, ?_⟩
      simp only [String.append_assoc]
      exact blockMark_of_front (by decide : Fronted "Sub " "Sub" " ") _
  | endCount footer =>
      cases h
      refine ⟨_, rfl, rfl, ?_⟩
      cases footer with
      | bare =>
          exact ⟨(by decide : "Next" ≠ ""), (by decide : blockMark "Next" = .closing "Next")⟩
      | counter | advance =>
          exact blockMark_of_front (by decide : Fronted "Next " "Next" " ") _
  | count direction counter first last step =>
      obtain ⟨text, htext, ⟨⟩⟩ := bind_eq_ok_iff.mp h
      have hmark := blockMark_loopHeader (hwritten counter rfl) htext
      cases direction <;> exact ⟨_, rfl, rfl, hmark⟩

end Vba

/-! ## Lines in Ruby -/

namespace Ruby

/-- The words that a line with a mark starts with. -/
def blockWords : List String :=
  ["if", "while", "def", "begin", "elsif", "else", "end"]

theorem wordMark_of_notMem {word : String} (h : word ∉ blockWords) (next : String) :
    wordMark word next = .plain := by
  unfold wordMark
  split <;> first | rfl | exact absurd (by decide) h

theorem blockMark_of_not {text : String} (hstart : ¬ StartsIn '#' text) (hend : ¬ EndsIn '|' text) :
    blockMark text = wordMark (headWord text) (headWord (behindWord text)) := by
  rw [blockMark, if_neg hstart, if_neg hend]

/-- A line that starts with a name of the program. -/
theorem blockMark_of_startsFree {text : String} (h : StartsFree text) (hend : ¬ EndsIn '|' text) :
    text ≠ "" ∧ blockMark text = .plain := by
  have hreserved : ∀ word ∈ blockWords, isReserved word = true := by decide +kernel
  refine ⟨ne_empty_of_headWord h.word, ?_⟩
  rw [blockMark_of_not (h.not_startsIn (by decide) (by decide)) hend]
  refine wordMark_of_notMem (fun hmem => ?_) _
  have hfree := h.free
  rw [hreserved _ hmem] at hfree
  cases hfree

/-- A line that starts with a fixed word. -/
theorem blockMark_of_front {front word behind : String} (h : Fronted front word behind)
    (hstart : front.toList.head?.any (fun c => c != '#') = true) {more : String}
    (hend : ¬ EndsIn '|' (front ++ more)) :
    front ++ more ≠ "" ∧
      blockMark (front ++ more) = wordMark word (headWord (behind ++ more)) := by
  obtain ⟨hhead, hrest⟩ := h.append more
  rw [blockMark_of_not (not_startsIn_of_front hstart more) hend, hhead, hrest]
  exact ⟨h.append_ne_empty more, rfl⟩

theorem blockMark_comment (text : String) :
    "#" ++ text ≠ "" ∧ blockMark ("#" ++ text) = .plain := by
  have hstart : StartsIn '#' ("#" ++ text) := by
    rw [StartsIn, String.toList_append]
    rfl
  exact ⟨ne_empty_append (by decide) _, if_pos hstart⟩

/-- The call that a counting loop is does not start as a comment. -/
theorem not_startsIn_loopCall {p : ExprPrinter} {direction : Direction} {first last step : Expr}
    {text : String} (hfirst : ¬ StartsIn '#' (p.text first))
    (h : loopCall p direction first last step = .ok text) (more : String) :
    ¬ StartsIn '#' (text ++ more) := by
  have hatom {mark : String} (hmark : mark.toList.head?.any (fun c => c != '#') = true)
      (rest : String) : ¬ StartsIn '#' ((p.print first).atom ++ (mark ++ rest)) :=
    not_startsIn_append (not_startsIn_atLeast hfirst) (not_startsIn_of_front hmark rest)
  simp only [loopCall] at h
  split at h
  · cases h
    simp only [String.append_assoc]
    exact not_startsIn_of_front (by decide) _
  · cases h
    simp only [String.append_assoc]
    exact hatom (by decide) _
  · cases h
    simp only [String.append_assoc]
    exact hatom (by decide) _
  · obtain ⟨_, _, ⟨⟩⟩ := bind_eq_ok_iff.mp h
    simp only [String.append_assoc]
    exact hatom (by decide) _

/-- The one line of an action, with its mark. -/
theorem exists_line {p : ExprPrinter} {action : Action} {own : List CodeLine}
    (hwritten : ∀ e ∈ action.written?, StartsFree (p.text e))
    (hname : ∀ name ∈ Vba.functionName? action, StartsFree (p.name name))
    (hexprs : ∀ e ∈ action.exprs, ¬ StartsIn '#' (p.text e) ∧ ¬ EndsIn '|' (p.text e))
    (h : lines p action = .ok own) :
    ∃ line, own = [line] ∧ line.depth = 0 ∧ line.text ≠ "" ∧
      blockMark line.text = action.kind.blockMark .ruby := by
  have hbar {text mark : String} (hmark : EndsAsExpr mark) : ¬ EndsIn '|' (text ++ mark) :=
    hmark.not_endsIn_append (by decide)
  cases action with
  | assign constant target value =>
      cases h
      have hend := not_endsIn_append (@hbar (p.text target) " = " (by decide))
        (hexprs value (by simp [Action.exprs])).2
      refine ⟨_, rfl, rfl, blockMark_of_startsFree ?_ hend⟩
      rw [String.append_assoc]
      exact (hwritten target rfl).followed (by decide) _
  | initializeArray target items =>
      cases h
      refine ⟨_, rfl, rfl, blockMark_of_startsFree ?_ (hbar (by decide))⟩
      simp only [String.append_assoc]
      exact (hwritten target rfl).followed (by decide) _
  | fillArray target value =>
      cases h
      refine ⟨_, rfl, rfl, blockMark_of_startsFree ?_ (hbar (by decide))⟩
      simp only [String.append_assoc]
      exact (hwritten target rfl).followed (by decide) _
  | change direction target amount =>
      cases direction
      all_goals
        cases h
        refine ⟨_, rfl, rfl, blockMark_of_startsFree ?_
          (not_endsIn_append (hbar (by decide)) (hexprs amount (by simp [Action.exprs])).2)⟩
        rw [String.append_assoc]
        exact (hwritten target rfl).followed (by decide) _
  | callFunction name args =>
      cases h
      refine ⟨_, rfl, rfl, blockMark_of_startsFree ?_ (hbar (by decide))⟩
      simp only [String.append_assoc]
      exact (hname name rfl).followed (by decide) _
  | output items =>
      cases h
      have hitems : ¬ EndsIn '|' (outputItems p items) := by
        unfold outputItems
        split
        · exact (hexprs _ (by simp [Action.exprs])).2
        · exact hbar (by decide)
      exact ⟨_, rfl, rfl, blockMark_of_front (by decide : Fronted "puts " "puts" " ")
        (by decide) (not_endsIn_append (by decide) hitems)⟩
  | ifThen e | elseIf e | whileLoop e =>
      cases h
      have he := (hexprs e (by simp [Action.exprs])).2
      exact ⟨_, rfl, rfl, blockMark_of_front ⟨rfl, rfl, by decide, by decide⟩ (by decide)
        (not_endsIn_append (by decide) he)⟩
  | endDoWhile e =>
      cases h
      have he := (hexprs e (by simp [Action.exprs])).2
      obtain ⟨hne, hmark⟩ := blockMark_of_front
        (by decide : Fronted "end while " "end" " while ") (by decide)
        (not_endsIn_append (by decide) he)
      refine ⟨_, rfl, rfl, hne, hmark.trans ?_⟩
      rw [((by decide : Fronted " while " "while" " ").append (p.text e)).1]
      rfl
  | otherwise | endIf | endWhile | doWhile | endFunction =>
      cases h
      exact ⟨_, rfl, rfl, by decide, by decide⟩
  | endCount =>
      cases h
      exact ⟨_, rfl, rfl, (by decide : "end" ≠ ""), (by decide : blockMark "end" = .closing "end")⟩
  | leaveLoop =>
      cases h
      exact ⟨_, rfl, rfl, (by decide : "break" ≠ ""), (by decide : blockMark "break" = .plain)⟩
  | defineFunction name parameters =>
      cases h
      refine ⟨_, rfl, rfl, ?_⟩
      simp only [String.append_assoc]
      refine blockMark_of_front (by decide : Fronted "def " "def" " ") (by decide) ?_
      simp only [← String.append_assoc]
      exact hbar (by decide)
  | region label | endRegion label =>
      cases h
      refine ⟨_, rfl, rfl, ?_⟩
      rw [CodeLine.comment, String.append_assoc]
      exact blockMark_comment _
  | count direction counter first last step =>
      obtain ⟨call, hcall, ⟨⟩⟩ := bind_eq_ok_iff.mp h
      have hstart := (hexprs first (by simp [Action.exprs])).1
      have hline : EndsIn '|' (call ++ " do |" ++ p.text counter ++ "|") :=
        endsIn_append (by decide)
      have hmark : blockMark (call ++ " do |" ++ p.text counter ++ "|") = .opening "end" := by
        rw [blockMark, if_neg, if_pos hline]
        simp only [String.append_assoc]
        exact not_startsIn_loopCall hstart hcall _
      cases direction <;> exact ⟨_, rfl, rfl, hline.ne_empty, hmark⟩

end Ruby

/-- Where blocks have closing lines, every action has one line. It is not empty, and its text has
the mark of the action. -/
theorem Target.exists_line {target : Target} {spellings? : Option Spellings} {action : Action}
    {own : List CodeLine} (htarget : target ≠ .python)
    (hwritten : ∀ e ∈ action.written?, StartsFree ((target.printer spellings?).text e))
    (hname : ∀ name ∈ Vba.functionName? action, StartsFree ((target.printer spellings?).name name))
    (hexprs : target = .ruby → ∀ e ∈ action.exprs,
      ¬ StartsIn '#' ((Target.ruby.printer spellings?).text e) ∧
        ¬ EndsIn '|' ((Target.ruby.printer spellings?).text e))
    (h : target.lines spellings? action = .ok own) :
    ∃ line, own = [line] ∧ line.depth = 0 ∧ line.text ≠ "" ∧
      target.blockMark line.text = action.kind.blockMark target := by
  cases target with
  | python => exact absurd rfl htarget
  | javaScript =>
      cases h
      exact JavaScript.exists_line hwritten hname
  | vba => exact Vba.exists_line hwritten h
  | ruby => exact Ruby.exists_line hwritten hname (hexprs rfl) h

end BlockCode
