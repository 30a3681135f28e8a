/- # Calls told from tokens

Which user-defined functions an expression calls, and with how many arguments, is told from its
tokens without reading them: each mark of a call stands in front of a name, and the arguments
behind the name are counted by the commas up to the parenthesis that closes them, but for commas
in brackets of their own. What the tokens tell in this way is what the tree says that they derive
from. So the calls of a text are those of its pieces, whatever tree is made of the whole.
-/

import BlockCode.Proofs.Expr.Apart
import BlockCode.Proofs.Expr.Commas
import BlockCode.Check.Expression

namespace BlockCode

/-! ## Counting ahead -/

/-- The commas among the words up to the bracket that closes what is open in front of them. Commas
in further brackets do not count, of which `depth` are open. -/
def itemBreaks : Nat → List (TokenKind × String) → Nat
  | _, [] => 0
  | depth, (.leftParen, _) :: rest | depth, (.leftBracket, _) :: rest => itemBreaks (depth + 1) rest
  | 0, (.rightParen, _) :: _ | 0, (.rightBracket, _) :: _ => 0
  | depth + 1, (.rightParen, _) :: rest | depth + 1, (.rightBracket, _) :: rest =>
    itemBreaks depth rest
  | 0, (.comma, _) :: rest => itemBreaks 0 rest + 1
  | depth, _ :: rest => itemBreaks depth rest

/-- The number of arguments in parentheses at the front of the words. -/
def argumentsAhead : List (TokenKind × String) → Nat
  | [] => 0
  | _ :: rest =>
    if rest.head?.any fun word => word.1 == .rightParen then 0 else itemBreaks 0 rest + 1

/-- The calls of user-defined functions that the words tell: the name behind each mark, and the
number of arguments behind the name. -/
def callsAhead : List (TokenKind × String) → List (String × Nat)
  | [] => []
  | word :: rest =>
    if word.1 = .userMarker then
      ((rest.head?.map Prod.snd).getD "", argumentsAhead rest.tail) :: callsAhead rest
    else callsAhead rest

/-- In front of any further words, the words tell these calls, and they have so many commas
outside of brackets. -/
structure Tally (words : List (TokenKind × String)) (commas : Nat) (calls : List (String × Nat)) :
    Prop where
  breaks : ∀ depth rest, itemBreaks depth (words ++ rest) =
    (if depth = 0 then commas else 0) + itemBreaks depth rest
  calls : ∀ rest, callsAhead (words ++ rest) = calls ++ callsAhead rest

namespace Tally

variable {words words' : List (TokenKind × String)} {commas commas' : Nat}
  {calls calls' : List (String × Nat)} {kind : TokenKind} {text : String}

theorem nil : Tally [] 0 [] :=
  ⟨fun depth rest => by simp, fun _ => rfl⟩

theorem append (h : Tally words commas calls) (h' : Tally words' commas' calls') :
    Tally (words ++ words') (commas + commas') (calls ++ calls') := by
  refine ⟨fun depth rest => ?_, fun rest => ?_⟩
  · rw [List.append_assoc, h.breaks, h'.breaks, ← Nat.add_assoc]
    split <;> rfl
  · rw [List.append_assoc, h.calls, h'.calls, List.append_assoc]

/-- A word that is neither a bracket nor a comma nor the mark of a call counts for nothing. -/
theorem cons (h : Tally words commas calls)
    (hkind : kind ∉ [.leftParen, .rightParen, .leftBracket, .rightBracket, .comma, .userMarker]) :
    Tally ((kind, text) :: words) commas calls := by
  simp only [List.mem_cons, List.not_mem_nil, or_false, not_or] at hkind
  refine ⟨fun depth rest => ?_, fun rest => ?_⟩
  · rw [← h.breaks, List.cons_append]
    cases kind <;> first | rfl | simp at hkind
  · rw [List.cons_append, callsAhead, if_neg hkind.2.2.2.2.2, h.calls]

theorem single
    (hkind : kind ∉ [.leftParen, .rightParen, .leftBracket, .rightBracket, .comma, .userMarker]) :
    Tally [(kind, text)] 0 [] :=
  nil.cons hkind

theorem comma : Tally [(.comma, text)] 1 [] := by
  refine ⟨fun depth rest => ?_, fun _ => rfl⟩
  cases depth with
  | zero => exact Nat.add_comm _ 1
  | succ depth => exact (Nat.zero_add _).symm

/-- Commas in parentheses do not count outside of them. -/
theorem inParens (h : Tally words commas calls) (opening closing : String) :
    Tally ((.leftParen, opening) :: (words ++ [(.rightParen, closing)])) 0 calls := by
  refine ⟨fun depth rest => ?_, fun rest => ?_⟩
  · rw [List.cons_append, List.append_assoc, itemBreaks, h.breaks, List.singleton_append,
      itemBreaks, if_neg (by omega), ite_self]
  · rw [List.cons_append, List.append_assoc, callsAhead, if_neg (by simp), h.calls]
    rfl

theorem inBrackets (h : Tally words commas calls) (opening closing : String) :
    Tally ((.leftBracket, opening) :: (words ++ [(.rightBracket, closing)])) 0 calls := by
  refine ⟨fun depth rest => ?_, fun rest => ?_⟩
  · rw [List.cons_append, List.append_assoc, itemBreaks, h.breaks, List.singleton_append,
      itemBreaks, if_neg (by omega), ite_self]
  · rw [List.cons_append, List.append_assoc, callsAhead, if_neg (by simp), h.calls]
    rfl

/-- The mark of a call tells the call that follows it. -/
theorem marked (h : Tally words 0 calls) {count : Nat}
    (hcount : ∀ rest, argumentsAhead (words ++ rest) = count) (mark name : String) :
    Tally ((.userMarker, mark) :: (.name, name) :: words) 0 ((name, count) :: calls) := by
  have hname : Tally ((.name, name) :: words) 0 calls := h.cons (by decide)
  refine ⟨fun depth rest => ?_, fun rest => ?_⟩
  · rw [← hname.breaks]
    cases depth <;> rfl
  · rw [List.cons_append, callsAhead, if_pos rfl, hname.calls, List.cons_append, List.tail_cons,
      hcount]
    rfl

end Tally

/-! ## Calls in trees -/

namespace Expr

/-- The user-defined function that the expression itself calls, with the number of arguments. -/
def userCall? : Expr → Option (String × Nat)
  | .call _ word args true => some (word, args.length)
  | _ => none

/-- The calls of user-defined functions in an expression, each with its number of arguments. -/
def userCalls (e : Expr) : List (String × Nat) :=
  e.parts.filterMap userCall?

theorem userCalls_index (span : Span) (base position : Expr) :
    (index span base position).userCalls = base.userCalls ++ position.userCalls := by
  rw [userCalls, parts, List.filterMap_cons_none rfl, List.filterMap_append, userCalls, userCalls]

theorem userCalls_unary (span : Span) (op : UnaryOp) (operand : Expr) :
    (unary span op operand).userCalls = operand.userCalls := by
  rw [userCalls, parts, List.filterMap_cons_none rfl, userCalls]

theorem userCalls_binary (span : Span) (op : BinaryOp) (left right : Expr) :
    (binary span op left right).userCalls = left.userCalls ++ right.userCalls := by
  rw [userCalls, parts, List.filterMap_cons_none rfl, List.filterMap_append, userCalls, userCalls]

theorem userCalls_group (span : Span) (inner : Expr) :
    (group span inner).userCalls = inner.userCalls := by
  rw [userCalls, parts, List.filterMap_cons_none rfl, userCalls]

theorem filterMap_userCall?_partsOfAll (args : List Expr) :
    (partsOfAll args).filterMap userCall? = args.flatMap userCalls := by
  induction args with
  | nil => rfl
  | cons e args ih => rw [partsOfAll, List.filterMap_append, ih, List.flatMap_cons, userCalls]

theorem userCalls_call_true (span : Span) (name : String) (args : List Expr) :
    (call span name args true).userCalls = (name, args.length) :: args.flatMap userCalls := by
  rw [userCalls, parts, List.filterMap_cons, filterMap_userCall?_partsOfAll]
  rfl

theorem userCalls_call_false (span : Span) (name : String) (args : List Expr) :
    (call span name args false).userCalls = args.flatMap userCalls := by
  rw [userCalls, parts, List.filterMap_cons, filterMap_userCall?_partsOfAll]
  rfl

theorem userCalls_builtin (span : Span) (function : Builtin) (args : List Expr) :
    (builtin span function args).userCalls = args.flatMap userCalls := by
  rw [userCalls, parts, List.filterMap_cons, filterMap_userCall?_partsOfAll]
  rfl

end Expr

theorem Line.userCallFaults_eq (functions : List FunctionSignature) (e : Expr) :
    userCallFaults functions e =
      e.userCalls.flatMap fun call => callFaults functions call.1 call.2 := by
  rw [userCallFaults, Expr.userCalls]
  induction e.parts with
  | nil => rfl
  | cons part parts ih =>
      rw [List.flatMap_cons, ih]
      split
      · rw [List.filterMap_cons, Expr.userCall?, List.flatMap_cons]
      · next hother =>
        have hnone : part.userCall? = none := by
          rw [Expr.userCall?.eq_def]
          split
          · exact absurd rfl (hother _ _ _)
          · rfl
        rw [List.filterMap_cons_none hnone, List.nil_append]

/-! ## What a phrase tells -/

/-- The words start with one that does not close parentheses. -/
def StartsOpen (words : List (TokenKind × String)) : Prop :=
  ∃ word rest, words = word :: rest ∧ word.1 ≠ .rightParen

theorem StartsOpen.append {words : List (TokenKind × String)} (h : StartsOpen words)
    (words' : List (TokenKind × String)) : StartsOpen (words ++ words') := by
  obtain ⟨word, rest, rfl, hword⟩ := h
  exact ⟨word, rest ++ words', rfl, hword⟩

/-- What the words of the phrase tell: the calls in its tree, but for those in the tree that it
goes on with. Commas outside of brackets stand between items only. -/
def Phrase.Tallies : Phrase → List (TokenKind × String) → Prop
  | .expr _ e, words => StartsOpen words ∧ Tally words 0 e.userCalls
  | .operators _ base e, words | .positions base e, words =>
    ∃ calls, e.userCalls = base.userCalls ++ calls ∧ Tally words 0 calls
  | .arguments args _, words =>
    Tally words 0 (args.flatMap Expr.userCalls) ∧
      ∀ rest, argumentsAhead (words ++ rest) = args.length
  | .items args, words =>
    args ≠ [] ∧ StartsOpen words ∧ Tally words (args.length - 1) (args.flatMap Expr.userCalls)

/-- Operators between operands are neither brackets nor commas nor marks of calls. -/
theorem notMem_of_operator? {level : Precedence} {kind : TokenKind} {op : BinaryOp}
    (h : level.operator? kind = some op) :
    kind ∉ [.leftParen, .rightParen, .leftBracket, .rightBracket, .comma, .userMarker] := by
  intro hmem
  simp only [List.mem_cons, List.not_mem_nil, or_false] at hmem
  rcases hmem with rfl | rfl | rfl | rfl | rfl | rfl <;>
    · cases level <;> cases h

/-- No arguments in parentheses. -/
theorem Phrase.tallies_noArgument (stop : Nat) (opening closing : String) :
    (Phrase.arguments [] stop).Tallies [(.leftParen, opening), (.rightParen, closing)] :=
  ⟨Tally.nil.inParens opening closing, fun _ => rfl⟩

/-- Items in parentheses are counted as arguments. -/
theorem Phrase.Tallies.arguments {args : List Expr} {words : List (TokenKind × String)}
    (h : (Phrase.items args).Tallies words) (stop : Nat) (opening closing : String) :
    (Phrase.arguments args stop).Tallies
      ((.leftParen, opening) :: (words ++ [(.rightParen, closing)])) := by
  obtain ⟨hargs, ⟨word, rest', rfl, hword⟩, htally⟩ := h
  refine ⟨htally.inParens opening closing, fun rest => ?_⟩
  have hlength := List.length_pos_iff.mpr hargs
  rw [List.cons_append, argumentsAhead, List.append_assoc, htally.breaks,
    if_neg (by simpa using hword), if_pos rfl, List.singleton_append, itemBreaks]
  omega

/-- The words of the tokens tell the calls in the tree that the tokens derive from. -/
theorem Derives.tallies {phrase : Phrase} {ws : List Token} (h : Derives phrase ws) :
    phrase.Tallies (ws.map Token.word) := by
  -- Every rule joins the words of its parts. Brackets come in pairs around a part, and a mark
  -- stands in front of arguments, which are counted as soon as they are closed.
  induction h with
  | chain _ _ _ ihfirst ihrest =>
      obtain ⟨hopen, hfirst⟩ := ihfirst
      obtain ⟨calls, heq, hrest⟩ := ihrest
      rw [List.map_append]
      exact ⟨hopen.append _, heq ▸ hfirst.append hrest⟩
  | noOperator | noPosition => exact ⟨[], (List.append_nil _).symm, .nil⟩
  | operator _ htoken _ _ ihright ihrest =>
      obtain ⟨calls, heq, hrest⟩ := ihrest
      rw [Expr.userCalls_binary, List.append_assoc] at heq
      rw [List.map_cons, List.map_append]
      exact ⟨_, heq, (ihright.2.append hrest).cons (notMem_of_operator? htoken)⟩
  | negate htoken _ ih | not htoken _ ih =>
      rw [List.map_cons, Token.word, htoken]
      refine ⟨⟨_, _, rfl, by simp⟩, ?_⟩
      rw [Expr.userCalls_unary]
      exact ih.2.cons (by decide)
  | unsigned _ ih | unraised _ ih => exact ih
  | raised _ htoken _ ihbase ihexponent =>
      rw [List.map_append, List.map_cons, Token.word, htoken]
      refine ⟨ihbase.1.append _, ?_⟩
      rw [Expr.userCalls_binary]
      exact ihbase.2.append (ihexponent.2.cons (by decide))
  | number htoken | string htoken | trueWord htoken | falseWord htoken =>
      rw [List.map_singleton, Token.word, htoken]
      exact ⟨⟨_, _, rfl, by simp⟩, .single (by decide)⟩
  | group hopening _ hclosing ih =>
      rw [List.map_cons, List.map_append, List.map_singleton, Token.word, Token.word, hopening,
        hclosing]
      refine ⟨⟨_, _, rfl, by simp⟩, ?_⟩
      rw [Expr.userCalls_group]
      exact ih.2.inParens _ _
  | userCall hmarker hname _ ih =>
      rw [List.map_cons, List.map_cons, Token.word, Token.word, hmarker, hname]
      refine ⟨⟨_, _, rfl, by simp⟩, ?_⟩
      rw [Expr.userCalls_call_true]
      exact ih.1.marked ih.2 _ _
  | name htoken _ ih =>
      obtain ⟨calls, heq, hrest⟩ := ih
      rw [List.map_cons, Token.word, htoken]
      refine ⟨⟨_, _, rfl, by simp⟩, ?_⟩
      rw [heq]
      exact hrest.cons (by decide)
  | call htoken _ _ _ ihargs ihrest | builtin htoken _ _ _ _ ihargs ihrest =>
      obtain ⟨calls, heq, hrest⟩ := ihrest
      rw [List.map_cons, List.map_append, Token.word, htoken]
      refine ⟨⟨_, _, rfl, by simp⟩, ?_⟩
      simp only [Expr.userCalls_call_false, Expr.userCalls_builtin] at heq
      rw [heq]
      exact (ihargs.1.append hrest).cons (by decide)
  | position hopening _ hclosing _ ihindex ihrest =>
      obtain ⟨calls, heq, hrest⟩ := ihrest
      rw [Expr.userCalls_index, List.append_assoc] at heq
      refine ⟨_, heq, ?_⟩
      rw [List.map_cons, List.map_append, List.map_cons, List.append_cons, ← List.cons_append,
        Token.word, Token.word, hopening, hclosing]
      exact (ihindex.2.inBrackets _ _).append hrest
  | noArgument hopening hclosing =>
      rw [List.map_cons, List.map_singleton, Token.word, Token.word, hopening, hclosing]
      exact Phrase.tallies_noArgument _ _ _
  | arguments hopening _ hclosing ih =>
      rw [List.map_cons, List.map_append, List.map_singleton, Token.word, Token.word, hopening,
        hclosing]
      exact ih.arguments _ _ _
  | lastItem _ ih =>
      refine ⟨by simp, ih.1, ?_⟩
      rw [List.flatMap_singleton]
      exact ih.2
  | @nextItem e comma args ws vs _ hcomma _ ihe ihrest =>
      obtain ⟨hargs, -, hrest⟩ := ihrest
      have hcount : (e :: args).length - 1 = 0 + (1 + (args.length - 1)) := by
        have hlength := List.length_pos_iff.mpr hargs
        rw [List.length_cons]
        omega
      rw [List.map_append, List.map_cons, Token.word, hcomma]
      refine ⟨by simp, ihe.1.append _, ?_⟩
      rw [hcount, List.flatMap_cons]
      exact ihe.2.append (Tally.comma.append hrest)

/-- A string that is not closed derives from nothing. -/
theorem Derives.ne_unclosedString {phrase : Phrase} {ws : List Token} (h : Derives phrase ws) :
    ∀ token ∈ ws, token.kind ≠ .unclosedString := by
  induction h with
  | noOperator | noPosition => simp
  | unsigned _ ih | unraised _ ih | lastItem _ ih => exact ih
  | chain _ _ _ ih ih' => exact List.forall_mem_append.mpr ⟨ih, ih'⟩
  | operator _ htoken _ _ ih ih' =>
      rw [List.forall_mem_cons, List.forall_mem_append]
      exact ⟨(ne_comma_of_operator? htoken).2.2, ih, ih'⟩
  | negate htoken _ ih | not htoken _ ih | name htoken _ ih =>
      rw [List.forall_mem_cons]
      exact ⟨by simp [htoken], ih⟩
  | raised _ htoken _ ih ih' | nextItem _ htoken _ ih ih' =>
      rw [List.forall_mem_append, List.forall_mem_cons]
      exact ⟨ih, by simp [htoken], ih'⟩
  | number htoken | string htoken | trueWord htoken | falseWord htoken =>
      rw [List.forall_mem_singleton]
      simp [htoken]
  | group hopening _ hclosing ih | arguments hopening _ hclosing ih =>
      rw [List.forall_mem_cons, List.forall_mem_append, List.forall_mem_singleton]
      exact ⟨by simp [hopening], ih, by simp [hclosing]⟩
  | userCall hmarker hname _ ih =>
      rw [List.forall_mem_cons, List.forall_mem_cons]
      exact ⟨by simp [hmarker], by simp [hname], ih⟩
  | call htoken _ _ _ ih ih' | builtin htoken _ _ _ _ ih ih' =>
      rw [List.forall_mem_cons, List.forall_mem_append]
      exact ⟨by simp [htoken], ih, ih'⟩
  | position hopening _ hclosing _ ih ih' =>
      rw [List.forall_mem_cons, List.forall_mem_append, List.forall_mem_cons]
      exact ⟨by simp [hopening], ih, by simp [hclosing], ih'⟩
  | noArgument hopening hclosing =>
      rw [List.forall_mem_cons, List.forall_mem_singleton]
      exact ⟨by simp [hopening], by simp [hclosing]⟩

/-! ## Calls that fit -/

section Fit

variable {functions : List FunctionSignature} {words words' : List (TokenKind × String)}
  {args : List Expr}

/-- Each call names a function that is defined with as many parameters. -/
def CallsFit (functions : List FunctionSignature) (calls : List (String × Nat)) : Prop :=
  ∀ call ∈ calls, Line.callFaults functions call.1 call.2 = []

theorem userCallFaults_eq_nil_iff {e : Expr} :
    Line.userCallFaults functions e = [] ↔ CallsFit functions e.userCalls := by
  rw [Line.userCallFaults_eq, List.flatMap_eq_nil_iff, CallsFit]

theorem callsFit_flatMap (h : ∀ e ∈ args, Line.userCallFaults functions e = []) :
    CallsFit functions (args.flatMap Expr.userCalls) := by
  intro call hcall
  obtain ⟨e, he, hmem⟩ := List.mem_flatMap.mp hcall
  exact userCallFaults_eq_nil_iff.mp (h e he) call hmem

/-- In front of any further words, the words tell calls that fit, and no others. -/
def Harmless (functions : List FunctionSignature) (words : List (TokenKind × String)) : Prop :=
  ∃ calls, CallsFit functions calls ∧ ∀ rest, callsAhead (words ++ rest) = calls ++ callsAhead rest

namespace Harmless

theorem append (h : Harmless functions words) (h' : Harmless functions words') :
    Harmless functions (words ++ words') := by
  obtain ⟨calls, hfit, hcalls⟩ := h
  obtain ⟨calls', hfit', hcalls'⟩ := h'
  refine ⟨calls ++ calls', List.forall_mem_append.mpr ⟨hfit, hfit'⟩, fun rest => ?_⟩
  rw [List.append_assoc, hcalls, hcalls', List.append_assoc]

/-- Words without the mark of a call tell none. -/
theorem of_forall_ne (h : ∀ word ∈ words, word.1 ≠ .userMarker) : Harmless functions words := by
  refine ⟨[], List.forall_mem_nil _, fun rest => ?_⟩
  induction words with
  | nil => rfl
  | cons word words ih =>
      rw [List.forall_mem_cons] at h
      rw [List.cons_append, callsAhead, if_neg h.1]
      exact ih h.2

/-- The words of a list of expressions whose calls fit. -/
theorem of_tally {commas : Nat} (h : Tally words commas (args.flatMap Expr.userCalls))
    (hfit : ∀ e ∈ args, Line.userCallFaults functions e = []) : Harmless functions words :=
  ⟨_, callsFit_flatMap hfit, h.calls⟩

/-- A call that fits, with arguments whose calls fit. -/
theorem userCall {stop : Nat} (h : (Phrase.arguments args stop).Tallies words) {name : String}
    (hcall : Line.callFaults functions name args.length = [])
    (hfit : ∀ e ∈ args, Line.userCallFaults functions e = []) (mark : String) :
    Harmless functions ((.userMarker, mark) :: (.name, name) :: words) :=
  ⟨_, List.forall_mem_cons.mpr ⟨hcall, callsFit_flatMap hfit⟩, (h.1.marked h.2 mark name).calls⟩

/-- Where the words of all tokens tell calls that fit, so does the tree. -/
theorem callsFit {ws : List Token} {commas : Nat} {calls : List (String × Nat)}
    (h : Harmless functions (ws.map Token.word)) (htally : Tally (ws.map Token.word) commas calls) :
    CallsFit functions calls := by
  obtain ⟨calls', hfit, hcalls⟩ := h
  have heq := (hcalls []).symm.trans (htally.calls [])
  rw [callsAhead, List.append_nil, List.append_nil] at heq
  exact heq ▸ hfit

end Harmless

end Fit

end BlockCode
