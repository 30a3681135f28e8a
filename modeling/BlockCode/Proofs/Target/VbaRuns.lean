/- # Running the reader of VBA

What the reader of VBA does with a run of tokens does not depend on the parentheses that are open
around it. So the tokens of an operation are read as the operation on what the tokens of its
operands are read as. Words, numbers and string literals as the printer writes them are one token
each.
-/

import Mathlib.Data.List.Forall2
import BlockCode.Proofs.Expr.Relexing
import BlockCode.Proofs.Names.CodePoints
import BlockCode.Proofs.Target.VbaGrouping
import BlockCode.Proofs.Text.Cutting

namespace BlockCode.VbaReading

theorem run_append (s : State) (tokens tokens' : List Token) :
    run s (tokens ++ tokens') = (run s tokens).bind fun s' => run s' tokens' :=
  List.foldlM_append

theorem run_cons (s : State) (token : Token) (tokens : List Token) :
    run s (token :: tokens) = (step s token).bind fun s' => run s' tokens :=
  List.foldlM_cons

theorem run_nil (s : State) : run s [] = some s :=
  rfl

section

variable {outer : List (Opening × List Pending)} {pending saved : List Pending}
  {operand base : Tree} {args : List Tree}

theorem step_group :
    step ⟨outer, pending, none⟩ .leftParen = some ⟨(.group, pending) :: outer, [], none⟩ :=
  rfl

theorem step_endGroup :
    step ⟨(.group, saved) :: outer, pending, some operand⟩ .rightParen =
      some ⟨outer, saved, some (takeOverAll pending operand)⟩ :=
  rfl

theorem step_operator (op : Operator) :
    step ⟨outer, pending, some operand⟩ (.operator op) =
      some ⟨outer, pendingBehind op (pending, operand), none⟩ :=
  rfl

theorem step_arguments (h : operand.isCallable = true) :
    step ⟨outer, pending, some operand⟩ .leftParen =
      some ⟨(.arguments operand [], pending) :: outer, [], none⟩ :=
  if_pos h

theorem step_comma :
    step ⟨(.arguments base args, saved) :: outer, pending, some operand⟩ .comma =
      some ⟨(.arguments base (args ++ [takeOverAll pending operand]), saved) :: outer, [], none⟩ :=
  rfl

theorem step_endArguments :
    step ⟨(.arguments base args, saved) :: outer, pending, some operand⟩ .rightParen =
      some ⟨outer, saved, some (.apply base (args ++ [takeOverAll pending operand]))⟩ :=
  rfl

end

/-- Whichever parentheses are open, the tokens do with the pending operators what the piece
does. -/
def Performs (tokens : List Token) (r : Reading) : Prop :=
  ∀ outer pending,
    run ⟨outer, pending, none⟩ tokens = some ⟨outer, (r pending).1, some (r pending).2⟩

namespace Performs

variable {ws vs : List Token} {r left right : Reading} {tree : Tree}

/-- The tokens of a whole text denote what the piece denotes on its own. -/
theorem readTokens_eq (h : Performs ws r) : readTokens ws = some r.tree := by
  rw [readTokens, h]
  rfl

/-- One token that is an operand. -/
theorem unit (token : Token)
    (htoken : ∀ outer pending, stepBefore outer pending token =
      some ⟨outer, pending, some tree⟩) : Performs [token] (.unit tree) := by
  intro outer pending
  rw [run_cons, step, htoken, Option.bind_some, run_nil]
  rfl

theorem group (h : Performs ws r) :
    Performs (Token.leftParen :: (ws ++ [Token.rightParen])) (.unit r.tree) := by
  intro outer pending
  rw [run_cons, step_group, Option.bind_some, run_append, h, Option.bind_some, run_cons,
    step_endGroup, Option.bind_some, run_nil]
  rfl

theorem operation (op : Operator) (hleft : Performs ws left) (hright : Performs vs right) :
    Performs (ws ++ .operator op :: vs) (.operation op left right) := by
  intro outer pending
  rw [run_append, hleft, Option.bind_some, run_cons, step_operator, Option.bind_some, hright]
  rfl

theorem sign {op : UnaryOp} (token : Token)
    (htoken : ∀ outer pending, stepBefore outer pending token =
      some ⟨outer, .unary op :: pending, none⟩)
    (h : Performs ws r) : Performs (token :: ws) (.sign op r) := by
  intro outer pending
  rw [run_cons, step, htoken, Option.bind_some, h]
  rfl

/-- Arguments between commas are collected up to the parenthesis that closes them. -/
theorem run_items {wss : List (List Token)} {args : List Tree}
    (h : List.Forall₂ (fun ws tree => ∃ r, Performs ws r ∧ r.tree = tree) wss args)
    (hne : wss ≠ []) (base : Tree) (done : List Tree) (saved : List Pending)
    (outer : List (Opening × List Pending)) :
    run ⟨(.arguments base done, saved) :: outer, [], none⟩
        ([Token.comma].intercalate wss ++ [.rightParen]) =
      some ⟨outer, saved, some (.apply base (done ++ args))⟩ := by
  induction h generalizing done with
  | nil => exact absurd rfl hne
  | @cons ws tree wss args hitem hrest ih =>
      obtain ⟨r, hitem, htree⟩ := hitem
      rw [Reading.tree] at htree
      cases hrest with
      | nil =>
          rw [List.intercalate_singleton, run_append, hitem, Option.bind_some, run_cons,
            step_endArguments, Option.bind_some, run_nil, htree]
      | @cons next nextTree wss args hnext hrest =>
          rw [List.intercalate_cons_cons, List.append_assoc, List.append_assoc, run_append, hitem,
            Option.bind_some, List.singleton_append, run_cons, step_comma, Option.bind_some, htree,
            ih (List.cons_ne_nil _ _), List.append_assoc, List.singleton_append]

/-- Arguments behind a name, an element or a call are applied to it. -/
theorem apply {wss : List (List Token)} {args : List Tree} (hbase : Performs ws (.unit tree))
    (hcallable : tree.isCallable = true)
    (hargs : List.Forall₂ (fun ws tree => ∃ r, Performs ws r ∧ r.tree = tree) wss args) :
    Performs (ws ++ Token.leftParen :: ([Token.comma].intercalate wss ++ [Token.rightParen]))
      (.unit (.apply tree args)) := by
  intro outer pending
  rw [run_append, hbase, Option.bind_some, Reading.unit, run_cons, step_arguments hcallable,
    Option.bind_some]
  cases hargs with
  | nil => rfl
  | cons harg hrest => exact run_items (.cons harg hrest) (List.cons_ne_nil _ _) ..

end Performs

/-- The text is read as the tokens when `rest` follows it. -/
def LexesAs (rest text : List Char) (tokens : List Token) : Prop :=
  lex (text ++ rest) = (lex rest).map (tokens ++ ·)

namespace LexesAs

variable {rest : List Char}

theorem nil : LexesAs rest [] [] := by
  rw [LexesAs, List.nil_append]
  cases lex rest <;> rfl

theorem append {text text' : List Char} {tokens tokens' : List Token}
    (h : LexesAs (text' ++ rest) text tokens) (h' : LexesAs rest text' tokens') :
    LexesAs rest (text ++ text') (tokens ++ tokens') := by
  rw [LexesAs] at h h' ⊢
  rw [List.append_assoc, h, h', Option.map_map]
  congr 1
  funext tokens''
  simp

theorem gap {text : List Char} {tokens : List Token} (h : LexesAs rest text tokens) :
    LexesAs rest (' ' :: text) tokens := by
  rw [LexesAs] at h ⊢
  rw [List.cons_append, lex, if_pos (by rfl), h]

/-- One token, with what follows it as the reader of tokens leaves it. -/
theorem single {c : Char} {tail : List Char} {token : Token} (hc : c ≠ ' ')
    (h : nextToken? c (tail ++ rest) = some (token, rest)) :
    LexesAs rest (c :: tail) [token] := by
  rw [LexesAs, List.cons_append, lex, if_neg (by simpa using hc)]
  split
  · rename_i hnone
    rw [h] at hnone
    cases hnone
  · rename_i token' behind hsome
    rw [h] at hsome
    cases hsome
    rfl

/-- A text in parentheses. -/
theorem enclosed {text : List Char} {tokens : List Token}
    (h : LexesAs (')' :: rest) text tokens) :
    LexesAs rest ('(' :: (text ++ [')'])) (.leftParen :: (tokens ++ [.rightParen])) := by
  have hopening : LexesAs (text ++ [')'] ++ rest) ['('] [.leftParen] := .single (by decide) rfl
  have hclosing : LexesAs rest [')'] [.rightParen] := .single (by decide) rfl
  exact append hopening (append h hclosing)

end LexesAs

/-- A name goes on with characters of names and with dots. -/
theorem isWordPart_of_mem_nameTail {text : List Char} :
    ∀ d ∈ nameTail text, isWordPart d = true := by
  fun_induction nameTail text with
  | case1 => simp
  | case2 c rest hpart ih =>
      rw [List.forall_mem_cons]
      exact ⟨by rw [isWordPart, hpart]; rfl, ih⟩
  | case3 c rest _ hdot _ ih =>
      rw [List.forall_mem_cons]
      exact ⟨by rw [isWordPart, hdot, Bool.or_true], ih⟩
  | case4 c rest _ hdot _ =>
      rw [List.forall_mem_singleton, isWordPart, hdot, Bool.or_true]
  | case5 => simp

theorem isWordPart_of_mem_wordTail {c : Char} {text : List Char} :
    ∀ d ∈ wordTail c text, isWordPart d = true := by
  rw [wordTail]
  cases afterWord? dottedUserWord (c :: text) with
  | none => exact isWordPart_of_mem_nameTail
  | some behind =>
      rw [List.forall_mem_append]
      exact ⟨List.all_eq_true.mp (by decide), isWordPart_of_mem_nameTail⟩

theorem isNumberPart_of_mem_numberTail {text : List Char} :
    ∀ d ∈ numberTail text, isNumberPart d = true := by
  have hdigits : ∀ d, isAsciiDigit d = true → isNumberPart d = true := by
    intro d hd
    rw [isNumberPart, hd]
    rfl
  have htake : ∀ d ∈ text.takeWhile isAsciiDigit, isNumberPart d = true := fun d hd =>
    hdigits d (List.all_eq_true.mp List.all_takeWhile d hd)
  rcases numberTail_cases text with hplain | ⟨fraction, _, hfraction, hdotted⟩
  · rw [hplain]
    exact htake
  · rw [hdotted, List.forall_mem_append, List.forall_mem_cons]
    exact ⟨htake, rfl, fun d hd => hdigits d (hfraction d hd)⟩

/-- A word ends at a break. -/
theorem nextToken?_word {c : Char} {tail rest : List Char} (hc : isNameStart c = true)
    (htail : tail.all isWordPart = true) (hrest : Breaks rest) :
    nextToken? c (tail ++ rest) = some (wordToken (c :: tail), rest) := by
  obtain ⟨htake, hdrop⟩ :=
    takeWhile_append_of_head (List.all_eq_true.mp htail) (hrest.head? (by decide))
  rw [nextToken?, if_pos hc, htake, hdrop]

/-- The word as the lexer of this library reads it is one word here too. -/
theorem lexesAs_name {word : String} (h : IsLexeme .name word) {rest : List Char}
    (hrest : Breaks rest) : LexesAs rest word.toList [wordToken word.toList] := by
  obtain ⟨c, tail, htext, htail⟩ := h
  have hfound := htail [] breaks_nil
  have hc : isNameStart c = true := by
    have hworded := (worded_of_tokenTail? hfound default).name rfl
    simpa using hworded
  have hparts : ∀ d ∈ tail, isWordPart d = true := by
    rw [tokenTail?, if_pos hc] at hfound
    split at hfound
    · cases hfound
    · rw [← (Prod.mk.inj (Option.some.inj hfound)).2]
      exact isWordPart_of_mem_wordTail
  rw [htext]
  apply LexesAs.single
  · rintro rfl
    cases hc
  · exact nextToken?_word hc (List.all_eq_true.mpr hparts) hrest

theorem lexesAs_number {text : String} (h : IsLexeme .number text) {rest : List Char}
    (hrest : Breaks rest) : LexesAs rest text.toList [.number text] := by
  obtain ⟨c, tail, htext, htail⟩ := h
  have hfound := htail [] breaks_nil
  have hc : isAsciiDigit c = true := by
    have hworded := (worded_of_tokenTail? hfound default).number rfl
    simpa using hworded
  have hstart : ¬ isNameStart c = true := by
    intro hstart
    rw [tokenTail?, if_pos hstart] at hfound
    split at hfound
    · cases hfound
    · exact wordKind_ne_number _ (Prod.mk.inj (Option.some.inj hfound)).1
  have hparts : ∀ d ∈ tail, isNumberPart d = true := by
    rw [tokenTail?, if_neg hstart, if_pos hc] at hfound
    rw [← (Prod.mk.inj (Option.some.inj hfound)).2]
    exact isNumberPart_of_mem_numberTail
  obtain ⟨htake, hdrop⟩ := takeWhile_append_of_head hparts
    (hrest.head? (P := fun c => isNumberPart c = false) (by decide))
  have hspelled : text = String.ofList (c :: tail) := by
    rw [← htext, String.ofList_toList]
  rw [htext]
  apply LexesAs.single
  · rintro rfl
    cases hc
  · rw [nextToken?, if_neg hstart, if_pos hc, htake, hdrop, hspelled]

/-- A literal with its quotes doubled has the contents that were quoted. -/
theorem stringBody_quoted {rest : List Char} (hrest : Breaks rest) (contents : List Char) :
    stringBody (contents.flatMap Dialect.vba.quotedChar ++ '"' :: rest) =
      some (contents, rest) := by
  induction contents with
  | nil =>
      rw [List.flatMap_nil, List.nil_append, stringBody.eq_def]
      cases rest with
      | nil => rfl
      | cons d rest =>
          have hd : (d == '"') = false :=
            hrest.head? (P := fun d => (d == '"') = false) (by decide) d rfl
          simp [hd]
  | cons c contents ih =>
      rw [List.flatMap_cons, List.append_assoc]
      by_cases hc : (c == '"') = true
      · rw [show Dialect.vba.quotedChar c = ['"', '"'] from if_pos hc, List.cons_append,
          List.cons_append, List.nil_append, stringBody.eq_def]
        simp [ih, eq_of_beq hc]
      · rw [show Dialect.vba.quotedChar c = [c] from if_neg hc, List.cons_append,
          List.nil_append, stringBody.eq_def]
        simp only [if_neg hc, ih, Option.map_some]

theorem lexesAs_string (contents : String) {rest : List Char} (hrest : Breaks rest) :
    LexesAs rest (Dialect.vba.stringLiteral contents).toList [.string contents] := by
  rw [Dialect.stringLiteral, String.toList_ofList, List.cons_append]
  apply LexesAs.single (by decide)
  rw [List.append_assoc, List.singleton_append, nextToken?, if_neg (by decide),
    if_neg (by decide), if_pos (by rfl), stringBody_quoted hrest, Option.map_some]
  dsimp only
  rw [String.ofList_toList]

/-- A name that no target reserves is no keyword of VBA. -/
theorem wordToken_of_reservedSegment? {word : String} (h : reservedSegment? word = none) :
    wordToken word.toList = .name word := by
  have hlookup : keywords.lookup (lowerAscii word) = none := by
    rw [List.lookup_eq_none_iff]
    intro entry hentry
    rw [bne_iff_ne]
    intro hkey
    have hletters : ∀ entry ∈ keywords, entry.1.toList.all isAsciiLetter = true := by
      decide +kernel
    have hreserved : ∀ entry ∈ keywords, entry.1 ∈ reservedWords := by
      decide +kernel
    have hword : ∀ c ∈ word.toList, isAsciiLetter c = true :=
      forall_isAsciiLetter_of_lowerAscii (by rw [hkey]; exact hletters entry hentry)
    have hdot : '.' ∉ word.toList := fun hmem => absurd (hword _ hmem) (by decide)
    have hisReserved := isReserved_of_lowerAscii hword (by rw [hkey]; exact hreserved entry hentry)
    rw [reservedSegment?, stringPiecesAt, piecesAt_eq_singleton hdot, List.map_singleton,
      String.ofList_toList, List.find?_cons, hisReserved] at h
    cases h
  rw [wordToken, String.ofList_toList, hlookup]
  rfl

/-- The dialect spells each operator as VBA does. -/
theorem lexesAs_symbol (op : BinaryOp) (rest : List Char) :
    LexesAs rest (' ' :: ((Dialect.vba.symbol op).toList ++ [' '])) [.operator (.of op)] := by
  have hword {c : Char} {tail : List Char} (hc : isNameStart c = true)
      (htail : tail.all isWordPart = true) :
      nextToken? c (tail ++ ([' '] ++ rest)) = some (wordToken (c :: tail), [' '] ++ rest) :=
    nextToken?_word hc htail (breaks_cons.mpr (by decide))
  have hsymbol : LexesAs ([' '] ++ rest) (Dialect.vba.symbol op).toList [.operator (.of op)] := by
    cases op with
    | modulo => exact .single (by decide) (hword (c := 'M') (by decide) (by decide))
    | and => exact .single (by decide) (hword (c := 'A') (by decide) (by decide))
    | or => exact .single (by decide) (hword (c := 'O') (by decide) (by decide))
    | _ => exact .single (by decide) rfl
  exact .gap (.append hsymbol (.gap .nil))

end BlockCode.VbaReading
