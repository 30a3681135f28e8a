/- # Balanced brackets

The bracket check looks at characters and knows no grammar. Here it is held against the reader of
expressions: in a text that reads, the grammar closes each parenthesis that it opens, and nothing is
empty but the arguments of a call, which stand behind a name. So the check has nothing to say about
texts that read, one by one or together, as long as no name in them ends in a dot.
-/

import BlockCode.Proofs.Expr.Equality
import BlockCode.Proofs.Expr.UserCalls
import BlockCode.Proofs.Fragment.Quotes

namespace BlockCode

namespace BracketScan

variable {scan harsher : BracketScan} {place : Quotation} {text text' : List Char} {c : Char}
  {n : Nat}

/-- Goes over one character at the place. -/
def step (scan : BracketScan) (place : Quotation) (c : Char) : BracketScan :=
  match place with
  | .outside => if isBlank c then scan else scan.see c
  | .inside => if c == '"' then scan.see c else scan
  | .escaped => scan

theorem scanFrom_nil : scan.scanFrom place [] = scan := by
  rw [scanFrom.eq_def]

theorem scanFrom_cons :
    scan.scanFrom place (c :: text) = (scan.step place c).scanFrom (place.after c) text := by
  rw [scanFrom.eq_def]
  rfl

/-- A text is gone over piece by piece. -/
theorem scanFrom_append : scan.scanFrom place (text ++ text') =
    (scan.scanFrom place text).scanFrom (place.past isDoubleQuote text) text' := by
  induction text generalizing scan place with
  | nil => rw [List.nil_append, scanFrom_nil, Quotation.past_nil]
  | cons c text ih =>
      rw [List.cons_append, scanFrom_cons, scanFrom_cons, ih, Quotation.past_cons,
        Quotation.next_isDoubleQuote]

/-- There are no problems where as many parentheses are closed as are opened, each behind the one
that it closes, and no pair is empty. -/
theorem errors_eq_nil_iff : scan.errors = [] ↔
    scan.opened = scan.closed ∧ scan.outOfOrder = false ∧ scan.emptyPair = false := by
  rw [errors, List.append_eq_nil_iff, List.append_eq_nil_iff, and_assoc]
  refine and_congr ?_ (and_congr ?_ ?_)
  · split
    · simp; omega
    · split <;> simp <;> omega
  · cases scan.outOfOrder <;> simp
  · cases scan.emptyPair <;> simp

/-! ## One fragment behind another -/

/-- Whether a pair that is empty now would be a problem. -/
def isOpenEmpty (scan : BracketScan) : Bool :=
  scan.beforeOpen.any fun before => !before.any endsName

/-- Going on from `scan` finds no more problems than going on from `harsher`, where `n` pairs more
have been closed. -/
structure Milder (n : Nat) (scan harsher : BracketScan) : Prop where
  opened : scan.opened = harsher.opened + n
  closed : scan.closed = harsher.closed + n
  outOfOrder : scan.outOfOrder = true → harsher.outOfOrder = true
  emptyPair : scan.emptyPair = true → harsher.emptyPair = true
  previous : harsher.previous.any endsName = true → scan.previous.any endsName = true
  beforeOpen : scan.isOpenEmpty = true → harsher.isOpenEmpty = true

namespace Milder

theorem refl (scan : BracketScan) : Milder 0 scan scan :=
  ⟨rfl, rfl, id, id, id, id⟩

theorem see (h : Milder n scan harsher) (c : Char) : Milder n (scan.see c) (harsher.see c) := by
  rw [BracketScan.see, BracketScan.see]
  split
  · refine ⟨by simp [h.opened, Nat.add_right_comm], h.closed, h.outOfOrder, h.emptyPair, id, ?_⟩
    simp only [isOpenEmpty, Option.any_some, Bool.not_eq_true', ← Bool.not_eq_true]
    exact mt h.previous
  · split
    · refine ⟨h.opened, by simp [h.closed, Nat.add_right_comm], ?_, ?_, id, id⟩
      · simp only [Bool.or_eq_true, decide_eq_true_eq]
        refine Or.imp h.outOfOrder fun hlt => ?_
        rw [h.opened, h.closed] at hlt
        omega
      · simp only [Bool.or_eq_true]
        exact Or.imp h.emptyPair h.beforeOpen
    · exact ⟨h.opened, h.closed, h.outOfOrder, h.emptyPair, id, id⟩

theorem step (h : Milder n scan harsher) (place : Quotation) (c : Char) :
    Milder n (scan.step place c) (harsher.step place c) := by
  cases place with
  | outside =>
      rw [BracketScan.step, BracketScan.step]
      split
      · exact h
      · exact h.see c
  | inside =>
      rw [BracketScan.step, BracketScan.step]
      split
      · exact h.see c
      · exact h
  | escaped => exact h

theorem scanFrom (h : Milder n scan harsher) (place : Quotation) (text : List Char) :
    Milder n (scan.scanFrom place text) (harsher.scanFrom place text) := by
  induction text generalizing scan harsher place with
  | nil => rwa [scanFrom_nil, scanFrom_nil]
  | cons c text ih =>
      rw [scanFrom_cons, scanFrom_cons]
      exact ih (h.step place c) _

end Milder

/-- While the order is kept, no more parentheses are closed than opened, and one is open if nothing
has followed it. -/
def Ordered (scan : BracketScan) : Prop :=
  scan.outOfOrder = false →
    scan.closed ≤ scan.opened ∧ (scan.beforeOpen.isSome = true → scan.closed < scan.opened)

namespace Ordered

theorem see (h : scan.Ordered) (c : Char) : (scan.see c).Ordered := by
  rw [BracketScan.see]
  split
  · intro horder
    have hle := (h horder).1
    exact ⟨Nat.le_succ_of_le hle, fun _ => Nat.lt_succ_of_le hle⟩
  · split
    · intro horder
      simp only [Bool.or_eq_false_iff, decide_eq_false_iff_not, not_lt] at horder
      exact ⟨horder.2, by simp⟩
    · intro horder
      exact ⟨(h horder).1, by simp⟩

theorem step (h : scan.Ordered) (place : Quotation) (c : Char) : (scan.step place c).Ordered := by
  cases place with
  | outside =>
      rw [BracketScan.step]
      split
      · exact h
      · exact h.see c
  | inside =>
      rw [BracketScan.step]
      split
      · exact h.see c
      · exact h
  | escaped => exact h

theorem scanFrom (h : scan.Ordered) (place : Quotation) (text : List Char) :
    (scan.scanFrom place text).Ordered := by
  induction text generalizing scan place with
  | nil => rwa [scanFrom_nil]
  | cons c text ih =>
      rw [scanFrom_cons]
      exact ih (h.step place c) _

end Ordered

/-- Nothing is open and nothing was wrong. -/
structure Rests (scan : BracketScan) : Prop where
  errors_eq : scan.errors = []
  beforeOpen_eq : scan.beforeOpen = none

theorem Ordered.rests (h : scan.Ordered) (herrors : scan.errors = []) : scan.Rests := by
  obtain ⟨hcounts, horder, -⟩ := errors_eq_nil_iff.mp herrors
  refine ⟨herrors, ?_⟩
  cases hopen : scan.beforeOpen with
  | none => rfl
  | some before =>
      have hlt := (h horder).2 (by rw [hopen]; rfl)
      omega

theorem rests_start : Rests {} :=
  ⟨rfl, rfl⟩

/-- Behind a scan that rests, a fragment is gone over as if it stood alone, and only the character
in front of it may make a pair at its start no problem. -/
theorem Rests.milder (h : scan.Rests) : Milder scan.closed scan {} := by
  obtain ⟨hcounts, horder, hempty⟩ := errors_eq_nil_iff.mp h.errors_eq
  refine ⟨by simpa using hcounts, by simp, by simp [horder], by simp [hempty], by simp, ?_⟩
  simp [isOpenEmpty, h.beforeOpen_eq]

theorem Rests.ordered (h : scan.Rests) : scan.Ordered := by
  obtain ⟨hcounts, -, -⟩ := errors_eq_nil_iff.mp h.errors_eq
  exact fun _ => ⟨hcounts.ge, by simp [h.beforeOpen_eq]⟩

theorem Milder.errors_eq_nil (h : Milder n scan harsher) (herrors : harsher.errors = []) :
    scan.errors = [] := by
  obtain ⟨hcounts, horder, hempty⟩ := errors_eq_nil_iff.mp herrors
  refine errors_eq_nil_iff.mpr ⟨by rw [h.opened, h.closed, hcounts], ?_, ?_⟩
  · exact Bool.eq_false_iff.mpr (mt h.outOfOrder (Bool.eq_false_iff.mp horder))
  · exact Bool.eq_false_iff.mpr (mt h.emptyPair (Bool.eq_false_iff.mp hempty))

end BracketScan

theorem bracketErrors_singleton (text : List Char) :
    bracketErrors [text] = (BracketScan.scanFrom {} .outside text).errors :=
  rfl

/-- Fragments whose brackets are fine by themselves have fine brackets together. -/
theorem bracketErrors_eq_nil_of_forall {fragments : List (List Char)}
    (h : ∀ fragment ∈ fragments, bracketErrors [fragment] = []) : bracketErrors fragments = [] := by
  suffices ∀ scan : BracketScan, scan.Rests →
      (fragments.foldl (fun scan fragment => scan.scanFrom .outside fragment) scan).Rests from
    (this {} BracketScan.rests_start).errors_eq
  induction fragments with
  | nil => exact fun scan hscan => hscan
  | cons fragment fragments ih =>
      rw [List.forall_mem_cons] at h
      intro scan hscan
      rw [List.foldl_cons]
      refine ih h.2 _ ((hscan.ordered.scanFrom .outside fragment).rests ?_)
      exact (hscan.milder.scanFrom .outside fragment).errors_eq_nil h.1

/-! ## Tokens -/

namespace BracketScan

/-- What is left of the scan when a word has passed that ends with the character. -/
def passed (scan : BracketScan) (last : Char) : BracketScan :=
  { scan with beforeOpen := none, previous := some last }

/-- Whether the scan minds the character. -/
def isMinded (c : Char) : Bool :=
  isBlank c || c == '(' || c == ')' || c == '"'

variable {scan : BracketScan} {c last : Char} {word : List Char}

theorem step_outside_of_isMinded (h : isMinded c = false) : scan.step .outside c = scan.passed c :=
    by
  simp only [isMinded, Bool.or_eq_false_iff] at h
  rw [step, if_neg (by simp [h]), see, if_neg (by simp [h]), if_neg (by simp [h])]
  rfl

/-- From the place on, the text leads outside of strings, and the scan passes it as a word that ends
with the character. -/
structure Passes (place : Quotation) (text : List Char) (last : Char) : Prop where
  scanFrom_eq : ∀ scan : BracketScan, scan.scanFrom place text = scan.passed last
  past_eq : place.past isDoubleQuote text = .outside

/-- A word without blanks, parentheses and quotes passes. -/
theorem passes_word (h : ∀ c ∈ word ++ [last], isMinded c = false) :
    Passes .outside (word ++ [last]) last := by
  have hquotes : ∀ c ∈ word ++ [last], isDoubleQuote c = false := fun c hc => by
    have hminded := h c hc
    simp only [isMinded, Bool.or_eq_false_iff] at hminded
    exact hminded.2
  refine ⟨fun scan => ?_, Quotation.past_outside hquotes⟩
  induction word generalizing scan with
  | nil =>
      rw [List.nil_append, scanFrom_cons, scanFrom_nil]
      exact step_outside_of_isMinded (h last (.head _))
  | cons c word ih =>
      have hafter : Quotation.outside.after c = .outside :=
        if_neg (by simpa [isDoubleQuote] using hquotes c (.head _))
      rw [List.cons_append, scanFrom_cons, hafter, step_outside_of_isMinded (h c (.head _)),
        ih (fun d hd => h d (.tail _ hd)) fun d hd => hquotes d (.tail _ hd)]
      rfl

/-- So does the rest of a string, from inside to the quote that ends it. -/
theorem passes_stringTail {text tail : List Char} (h : stringTail text = (tail, true)) :
    Passes .inside tail '"' := by
  fun_induction stringTail text generalizing tail with
  | case1 | case3 | case4 => cases h
  | case2 c text hquote =>
      cases h
      obtain rfl := eq_of_beq hquote
      exact ⟨fun scan => by rw [scanFrom_cons, scanFrom_nil]; rfl, rfl⟩
  | case5 c hquote hslash d text hfeed tail' closed htext ih =>
      cases h
      have hafter : Quotation.inside.after c = .escaped := if_pos hslash
      have hrest := ih htext
      refine ⟨fun scan => ?_, ?_⟩
      · rw [scanFrom_cons, scanFrom_cons, hafter]
        exact (congrArg (scanFrom · .inside tail') (if_neg hquote)).trans (hrest.scanFrom_eq scan)
      · rw [Quotation.past_cons, Quotation.past_cons, Quotation.next_isDoubleQuote _ c, hafter]
        exact hrest.past_eq
  | case6 c text hquote hslash tail' closed htext ih =>
      cases h
      have hafter : Quotation.inside.after c = .inside := by
        rw [Quotation.after, if_neg hslash, if_neg hquote]
      have hrest := ih htext
      refine ⟨fun scan => ?_, ?_⟩
      · rw [scanFrom_cons, hafter]
        exact (congrArg (scanFrom · .inside tail') (if_neg hquote)).trans (hrest.scanFrom_eq scan)
      · rw [Quotation.past_cons, Quotation.next_isDoubleQuote, hafter, hrest.past_eq]

/-- White space leads nowhere. -/
theorem past_blank {gap : List Char} (h : ∀ c ∈ gap, isBlank c = true) :
    Quotation.outside.past isDoubleQuote gap = .outside :=
  Quotation.past_outside fun c hc => beq_eq_false_iff_ne.mpr (ne_of_isBlank (h c hc) (by decide))

/-- Outside of strings white space is passed over. -/
theorem scanFrom_blank {gap : List Char} (h : ∀ c ∈ gap, isBlank c = true) :
    scan.scanFrom .outside gap = scan := by
  induction gap with
  | nil => exact scanFrom_nil
  | cons c gap ih =>
      rw [List.forall_mem_cons] at h
      have hafter : Quotation.outside.after c = .outside :=
        past_blank (List.forall_mem_singleton.mpr h.1)
      rw [scanFrom_cons, hafter, step, if_pos h.1, ih h.2]

end BracketScan

namespace Token

/-- What the scan sees of the token: a parenthesis, or a word that passes. A name ends as a name
may, or in a dot. -/
structure Seen (token : Token) : Prop where
  leftParen : token.kind = .leftParen → token.text.toList = ['(']
  rightParen : token.kind = .rightParen → token.text.toList = [')']
  other : token.kind ≠ .leftParen → token.kind ≠ .rightParen → token.kind ≠ .unclosedString →
    ∃ last, token.text.toList.getLast? = some last ∧
      (token.kind = .name → BracketScan.endsName last = true ∨ last = '.') ∧
      BracketScan.Passes .outside token.text.toList last

/-- The token ends outside strings, as it started. -/
theorem Seen.past_outside {token : Token} (h : token.Seen)
    (hclosed : token.kind ≠ .unclosedString) :
    Quotation.outside.past isDoubleQuote token.text.toList = .outside := by
  by_cases hleft : token.kind = .leftParen
  · rw [h.leftParen hleft]
    rfl
  · by_cases hright : token.kind = .rightParen
    · rw [h.rightParen hright]
      rfl
    · obtain ⟨last, -, -, hpasses⟩ := h.other hleft hright hclosed
      exact hpasses.past_eq

theorem seen_of_word {kind : TokenKind} {word : List Char} {last : Char}
    (hkind : kind ≠ .leftParen ∧ kind ≠ .rightParen)
    (hword : ∀ c ∈ word ++ [last], BracketScan.isMinded c = false)
    (hname : kind = .name → BracketScan.endsName last = true ∨ last = '.') (span : Span) :
    Seen ⟨kind, span, String.ofList (word ++ [last])⟩ := by
  refine ⟨fun h => absurd h hkind.1, fun h => absurd h hkind.2, fun _ _ _ => ?_⟩
  rw [String.toList_ofList]
  exact ⟨last, List.getLast?_concat, hname, BracketScan.passes_word hword⟩

theorem seen_of_stringTail {rest tail : List Char} {closed : Bool}
    (h : stringTail rest = (tail, closed)) (span : Span) :
    Seen ⟨if closed then .string else .unclosedString, span, String.ofList ('"' :: tail)⟩ := by
  cases closed with
  | false => exact ⟨by simp, by simp, by simp⟩
  | true =>
      obtain ⟨contents, rfl, -⟩ := exists_contents_of_stringTail h
      refine ⟨by simp, by simp, fun _ _ _ => ?_⟩
      rw [String.toList_ofList]
      have htail := BracketScan.passes_stringTail h
      refine ⟨'"', by rw [← List.cons_append, List.getLast?_concat], by simp, fun scan => ?_, ?_⟩
      · rw [BracketScan.scanFrom_cons]
        exact htail.scanFrom_eq _
      · exact htail.past_eq

theorem seen_of_mem_operatorWords {entry : String × TokenKind} (h : entry ∈ operatorWords)
    (span : Span) : Seen ⟨entry.2, span, String.ofList entry.1.toList⟩ := by
  have hoperators : ∀ entry ∈ operatorWords,
      (entry.2 = .leftParen → entry.1.toList = ['(']) ∧
      (entry.2 = .rightParen → entry.1.toList = [')']) ∧ entry.2 ≠ .name ∧ entry.1.toList ≠ [] ∧
      (entry.2 ≠ .leftParen → entry.2 ≠ .rightParen →
        ∀ c ∈ entry.1.toList, BracketScan.isMinded c = false) := by
    decide
  obtain ⟨hleft, hright, hname, hne, hword⟩ := hoperators entry h
  have hlast := List.dropLast_append_getLast hne
  refine ⟨fun hkind => ?_, fun hkind => ?_, fun hnotLeft hnotRight hclosed => ?_⟩
  · rw [String.toList_ofList]
    exact hleft hkind
  · rw [String.toList_ofList]
    exact hright hkind
  · rw [← hlast]
    refine (seen_of_word ⟨hnotLeft, hnotRight⟩ (fun d hd => ?_) (fun hkind => absurd hkind hname)
      span).other hnotLeft hnotRight hclosed
    exact hword hnotLeft hnotRight d (hlast ▸ hd)

end Token

/-- What a name may go on with, it may end with. -/
theorem endsName_of_isNamePart {c : Char} (h : isNamePart c = true) :
    BracketScan.endsName c = true := by
  rw [isNamePart, Bool.or_eq_true, Bool.or_eq_true] at h
  rw [BracketScan.endsName, isAlphanumeric]
  rcases h with (h | h) | h <;> simp [h]

/-- The scan minds no character of names and numbers. -/
theorem isMinded_of_isWordChar {c : Char} (h : isWordChar c = true) :
    BracketScan.isMinded c = false := by
  have hblank : isBlank c = false := by
    rw [← Bool.not_eq_true]
    intro hblank
    rw [isWordChar_of_isBlank hblank] at h
    cases h
  have hother : c ≠ '(' ∧ c ≠ ')' ∧ c ≠ '"' := by
    refine ⟨?_, ?_, ?_⟩ <;>
      · rintro rfl
        exact absurd h (by decide)
  simp [BracketScan.isMinded, hblank, hother]

/-- A token that starts as a name is a word or the user marker. -/
theorem kind_mem_of_isNameStart {c : Char} {rest tail : List Char} {kind : TokenKind}
    (h : tokenTail? c rest = some (kind, tail)) (hstart : isNameStart c = true) :
    kind ∈ [.userMarker, .trueWord, .falseWord, .and, .or, .not, .name] := by
  rw [tokenTail?, if_pos hstart] at h
  split at h
  · obtain ⟨rfl, -⟩ := Prod.mk.inj (Option.some.inj h)
    exact .head _
  · obtain ⟨rfl, -⟩ := Prod.mk.inj (Option.some.inj h)
    exact .tail _ (wordKind_mem _)

/-- The scan sees a token as what it is. -/
theorem seen_of_tokenTail? {c : Char} {rest tail : List Char} {kind : TokenKind}
    (h : tokenTail? c rest = some (kind, tail)) (span : Span) :
    Token.Seen ⟨kind, span, String.ofList (c :: tail)⟩ := by
  have hlast :
      c :: tail = (c :: tail).dropLast ++ [(c :: tail).getLast (List.cons_ne_nil c tail)] :=
    (List.dropLast_append_getLast _).symm
  by_cases hstart : isNameStart c = true
  · have hchars := isWordChar_of_tokenTail? h hstart
    have hkinds : ∀ kind ∈ [TokenKind.userMarker, .trueWord, .falseWord, .and, .or, .not, .name],
        kind ≠ .leftParen ∧ kind ≠ .rightParen := by decide
    rw [hlast]
    refine Token.seen_of_word (hkinds kind (kind_mem_of_isNameStart h hstart)) ?_ ?_ span
    · exact fun d hd => isMinded_of_isWordChar (hchars d (hlast ▸ hd))
    · intro hname
      have hmem := List.getLast_mem (List.cons_ne_nil c tail)
      rcases isNamePart_or_dot_of_tokenTail? h (.inr hname) _ hmem with hpart | hdot
      · exact .inl (endsName_of_isNamePart hpart)
      · exact .inr hdot
  · rw [tokenTail?, if_neg hstart] at h
    split at h
    · next hdigit =>
      obtain ⟨rfl, rfl⟩ := Prod.mk.inj (Option.some.inj h)
      have hchars : ∀ d ∈ c :: numberTail rest, isWordChar d = true :=
        List.forall_mem_cons.mpr
          ⟨isWordChar_of_isAsciiDigit hdigit, fun d hd => isWordChar_of_mem_numberTail hd⟩
      rw [hlast]
      exact Token.seen_of_word (by decide)
        (fun d hd => isMinded_of_isWordChar (hchars d (hlast ▸ hd))) (by simp) span
    · split at h
      · next hquote =>
        obtain rfl := eq_of_beq hquote
        obtain ⟨rfl, rfl⟩ := Prod.mk.inj (Option.some.inj h)
        exact Token.seen_of_stringTail rfl span
      · obtain ⟨entry, hfind, heq⟩ := Option.map_eq_some_iff.mp h
        cases heq
        obtain ⟨hmem, hword, -⟩ := eq_cons_of_find?_operatorWords hfind
        rw [← hword]
        exact Token.seen_of_mem_operatorWords hmem span

theorem seen_of_mem_lexFrom {offset : Nat} {text : List Char} {tokens : List Token}
    (h : lexFrom offset text = .ok tokens) : ∀ token ∈ tokens, token.Seen := by
  intro token htoken
  obtain ⟨kind, span, word⟩ := token
  obtain ⟨c, rest, tail, htail, rfl⟩ := exists_tokenTail?_of_mem_lexFrom h _ htoken
  exact seen_of_tokenTail? htail span

namespace BracketScan

/-- The scan behind the tokens. -/
def seenAll (scan : BracketScan) (tokens : List Token) : BracketScan :=
  tokens.foldl (fun scan token => scan.scanFrom .outside token.text.toList) scan

section

variable {scan : BracketScan} {token : Token} {tokens tokens' : List Token}

theorem seenAll_nil : scan.seenAll [] = scan :=
  rfl

theorem seenAll_append :
    scan.seenAll (tokens ++ tokens') = (scan.seenAll tokens).seenAll tokens' :=
  List.foldl_append

theorem seenAll_leftParen (h : token.Seen) (hkind : token.kind = .leftParen) :
    scan.seenAll (token :: tokens) = (scan.see '(').seenAll tokens := by
  rw [seenAll, List.foldl_cons, h.leftParen hkind, scanFrom_cons, scanFrom_nil]
  rfl

theorem seenAll_rightParen (h : token.Seen) (hkind : token.kind = .rightParen) :
    scan.seenAll (token :: tokens) = (scan.see ')').seenAll tokens := by
  rw [seenAll, List.foldl_cons, h.rightParen hkind, scanFrom_cons, scanFrom_nil]
  rfl

/-- A token that is no parenthesis passes, whatever the scan has seen. -/
theorem exists_seenAll_other (h : token.Seen) {kind : TokenKind} (hkind : token.kind = kind)
    (hother : kind ≠ .leftParen ∧ kind ≠ .rightParen ∧ kind ≠ .unclosedString) :
    ∃ last, token.text.toList.getLast? = some last ∧
      (token.kind = .name → endsName last = true ∨ last = '.') ∧
      ∀ tokens, scan.seenAll (token :: tokens) = (scan.passed last).seenAll tokens := by
  subst hkind
  obtain ⟨last, hlast, hname, hpasses⟩ := h.other hother.1 hother.2.1 hother.2.2
  refine ⟨last, hlast, hname, fun tokens => ?_⟩
  rw [seenAll, List.foldl_cons, hpasses.scanFrom_eq, seenAll]

end

/-- Between the two scans some pairs were closed, and there were no problems. -/
structure Balances (before after : BracketScan) : Prop where
  exists_pairs : ∃ n, after.opened = before.opened + n ∧ after.closed = before.closed + n
  outOfOrder : after.outOfOrder = before.outOfOrder
  emptyPair : after.emptyPair = before.emptyPair
  beforeOpen : after.beforeOpen = none

namespace Balances

variable {before mid after : BracketScan}

theorem refl (h : before.beforeOpen = none) : Balances before before :=
  ⟨⟨0, rfl, rfl⟩, rfl, rfl, h⟩

theorem passed (last : Char) : Balances before (before.passed last) :=
  ⟨⟨0, rfl, rfl⟩, rfl, rfl, rfl⟩

theorem le (h : Balances before after) (hle : before.closed ≤ before.opened) :
    after.closed ≤ after.opened := by
  obtain ⟨n, hopened, hclosed⟩ := h.exists_pairs
  omega

theorem trans (h : Balances before mid) (h' : Balances mid after) : Balances before after := by
  obtain ⟨n, hopened, hclosed⟩ := h.exists_pairs
  obtain ⟨m, hopened', hclosed'⟩ := h'.exists_pairs
  exact ⟨⟨n + m, by omega, by omega⟩, h'.outOfOrder.trans h.outOfOrder,
    h'.emptyPair.trans h.emptyPair, h'.beforeOpen⟩

/-- Parentheses around what balances balance. -/
theorem enclosed (h : Balances (before.see '(') mid) (hle : before.closed ≤ before.opened) :
    Balances before (mid.see ')') := by
  obtain ⟨n, hopened, hclosed⟩ := h.exists_pairs
  change mid.opened = before.opened + 1 + n at hopened
  change mid.closed = before.closed + n at hclosed
  refine ⟨⟨n + 1, ?_, ?_⟩, ?_, ?_, rfl⟩
  · change mid.opened = _
    omega
  · change mid.closed + 1 = _
    omega
  · change (mid.outOfOrder || decide (mid.closed + 1 > mid.opened)) = _
    rw [h.outOfOrder, decide_eq_false (by omega), Bool.or_false]
    rfl
  · change (mid.emptyPair || mid.beforeOpen.any fun b => !b.any endsName) = _
    rw [h.emptyPair, h.beforeOpen, Option.any_none, Bool.or_false]
    rfl

/-- So do parentheses around nothing behind a name. -/
theorem noArgument (hle : before.closed ≤ before.opened)
    (hname : before.previous.any endsName = true) :
    Balances before ((before.see '(').see ')') := by
  refine ⟨⟨1, rfl, rfl⟩, ?_, ?_, rfl⟩
  · change (before.outOfOrder || decide (before.closed + 1 > before.opened + 1)) = _
    rw [decide_eq_false (by omega), Bool.or_false]
  · change (before.emptyPair || !before.previous.any endsName) = _
    rw [hname, Bool.not_true, Bool.or_false]

end Balances

end BracketScan

/-- What the scan needs in front of the tokens of a phrase: arguments stand behind a name, and where
a phrase goes on with a tree, the tree stands in front of it. -/
def Phrase.Follows : Phrase → BracketScan → Prop
  | .expr .., _ | .items .., _ => True
  | .operators .., scan | .positions .., scan => scan.beforeOpen = none
  | .arguments .., scan => scan.previous.any BracketScan.endsName = true

/-- Between operands stands no parenthesis. -/
theorem ne_paren_of_operator? {level : Precedence} {kind : TokenKind} {op : BinaryOp}
    (h : level.operator? kind = some op) :
    kind ≠ .leftParen ∧ kind ≠ .rightParen ∧ kind ≠ .unclosedString := by
  refine ⟨?_, ?_, ?_⟩ <;>
    · rintro rfl
      cases level <;> cases h

/-- No name among the tokens ends in a dot. -/
def NoDottedEnds (tokens : List Token) : Prop :=
  ∀ token ∈ tokens, token.kind = .name → token.text.toList.getLast? ≠ some '.'

instance (tokens : List Token) : Decidable (NoDottedEnds tokens) :=
  inferInstanceAs (Decidable (∀ token ∈ tokens, _ → _))

/-- A name that does not end in a dot ends as the scan expects it of one. -/
theorem endsName_of_noDottedEnds {token : Token} {tokens : List Token} {last : Char}
    (hnames : NoDottedEnds (token :: tokens)) (hkind : token.kind = .name)
    (hlast : token.text.toList.getLast? = some last)
    (hname : token.kind = .name → BracketScan.endsName last = true ∨ last = '.') :
    BracketScan.endsName last = true := by
  refine (hname hkind).resolve_right fun hdot => ?_
  exact hnames token (.head _) hkind (hdot ▸ hlast)

open BracketScan in
/-- The tokens of a phrase balance. -/
theorem Derives.balances {phrase : Phrase} {ws : List Token} (h : Derives phrase ws)
    (hseen : ∀ token ∈ ws, token.Seen) (hnames : NoDottedEnds ws) {scan : BracketScan}
    (hle : scan.closed ≤ scan.opened) (hfollows : phrase.Follows scan) :
    scan.Balances (scan.seenAll ws) := by
  -- A token that is no parenthesis passes, so what stands behind it starts without an open pair.
  have passes {token : Token} (hseen : token.Seen) {kind : TokenKind} (hkind : token.kind = kind)
      (hother : kind ≠ .leftParen ∧ kind ≠ .rightParen ∧ kind ≠ .unclosedString)
      (scan : BracketScan) {tokens : List Token}
      (hrest : ∀ scan' : BracketScan, scan.Balances scan' → scan'.Balances (scan'.seenAll tokens)) :
      scan.Balances (scan.seenAll (token :: tokens)) := by
    obtain ⟨last, -, -, hpass⟩ := exists_seenAll_other hseen hkind hother
    rw [hpass]
    exact (Balances.passed last).trans (hrest _ (.passed last))
  induction h generalizing scan with
  | chain _ _ _ ihfirst ihrest =>
      rw [List.forall_mem_append] at hseen
      rw [NoDottedEnds, List.forall_mem_append] at hnames
      rw [seenAll_append]
      have hfirst := ihfirst hseen.1 hnames.1 hle trivial
      exact hfirst.trans (ihrest hseen.2 hnames.2 (hfirst.le hle) hfirst.beforeOpen)
  | noOperator | noPosition => exact .refl hfollows
  | operator _ htoken _ _ ihright ihrest =>
      rw [List.forall_mem_cons, List.forall_mem_append] at hseen
      rw [NoDottedEnds, List.forall_mem_cons, List.forall_mem_append] at hnames
      refine passes hseen.1 rfl (ne_paren_of_operator? htoken) scan fun scan' hscan => ?_
      rw [seenAll_append]
      have hright := ihright hseen.2.1 hnames.2.1 (hscan.le hle) trivial
      exact hright.trans
        (ihrest hseen.2.2 hnames.2.2 (hright.le (hscan.le hle)) hright.beforeOpen)
  | negate htoken _ ih | not htoken _ ih =>
      rw [List.forall_mem_cons] at hseen
      rw [NoDottedEnds, List.forall_mem_cons] at hnames
      exact passes hseen.1 htoken (by decide) scan fun scan' hscan =>
        ih hseen.2 hnames.2 (hscan.le hle) trivial
  | unsigned _ ih | unraised _ ih | lastItem _ ih => exact ih hseen hnames hle trivial
  | raised _ htoken _ ihbase ihexponent =>
      rw [List.forall_mem_append, List.forall_mem_cons] at hseen
      rw [NoDottedEnds, List.forall_mem_append, List.forall_mem_cons] at hnames
      rw [seenAll_append]
      have hbase := ihbase hseen.1 hnames.1 hle trivial
      refine hbase.trans (passes hseen.2.1 htoken (by decide) _ fun scan' hscan => ?_)
      exact ihexponent hseen.2.2 hnames.2.2 (hscan.le (hbase.le hle)) trivial
  | number htoken | string htoken | trueWord htoken | falseWord htoken =>
      exact passes (hseen _ (.head _)) htoken (by decide) scan fun scan' hscan =>
        .refl hscan.beforeOpen
  | group hopening _ hclosing ih =>
      rw [List.forall_mem_cons, List.forall_mem_append, List.forall_mem_singleton] at hseen
      rw [NoDottedEnds, List.forall_mem_cons, List.forall_mem_append] at hnames
      rw [seenAll_leftParen hseen.1 hopening, seenAll_append,
        seenAll_rightParen hseen.2.2 hclosing, seenAll_nil]
      exact (ih hseen.2.1 hnames.2.1 (Nat.le_succ_of_le hle) trivial).enclosed hle
  | arguments hopening _ hclosing ih =>
      rw [List.forall_mem_cons, List.forall_mem_append, List.forall_mem_singleton] at hseen
      rw [NoDottedEnds, List.forall_mem_cons, List.forall_mem_append] at hnames
      rw [seenAll_leftParen hseen.1 hopening, seenAll_append,
        seenAll_rightParen hseen.2.2 hclosing, seenAll_nil]
      exact (ih hseen.2.1 hnames.2.1 (Nat.le_succ_of_le hle) trivial).enclosed hle
  | noArgument hopening hclosing =>
      rw [List.forall_mem_cons, List.forall_mem_singleton] at hseen
      rw [seenAll_leftParen hseen.1 hopening, seenAll_rightParen hseen.2 hclosing, seenAll_nil]
      exact .noArgument hle hfollows
  | userCall hmarker hname _ ih =>
      rw [List.forall_mem_cons, List.forall_mem_cons] at hseen
      have hrest := List.forall_mem_cons.mp hnames |>.2
      refine passes hseen.1 hmarker (by decide) scan fun scan' hscan => ?_
      obtain ⟨last, hlast, hends, hpass⟩ := exists_seenAll_other hseen.2.1 hname (by decide)
      rw [hpass]
      exact (Balances.passed last).trans (ih hseen.2.2 (List.forall_mem_cons.mp hrest).2
        (hscan.le hle) (endsName_of_noDottedEnds hrest hname hlast hends))
  | name htoken _ ih =>
      rw [List.forall_mem_cons] at hseen
      rw [NoDottedEnds, List.forall_mem_cons] at hnames
      exact passes hseen.1 htoken (by decide) scan fun scan' hscan =>
        ih hseen.2 hnames.2 (hscan.le hle) hscan.beforeOpen
  | call htoken _ _ _ ihargs ihrest | builtin htoken _ _ _ _ ihargs ihrest =>
      rw [List.forall_mem_cons, List.forall_mem_append] at hseen
      obtain ⟨last, hlast, hends, hpass⟩ := exists_seenAll_other hseen.1 htoken (by decide)
      have hend := endsName_of_noDottedEnds hnames htoken hlast hends
      rw [NoDottedEnds, List.forall_mem_cons, List.forall_mem_append] at hnames
      rw [hpass, seenAll_append]
      have hargs : (scan.passed last).Balances _ := ihargs hseen.2.1 hnames.2.1 hle hend
      exact (Balances.passed last).trans
        (hargs.trans (ihrest hseen.2.2 hnames.2.2 (hargs.le hle) hargs.beforeOpen))
  | position hopening _ hclosing _ ihindex ihrest =>
      rw [List.forall_mem_cons, List.forall_mem_append, List.forall_mem_cons] at hseen
      rw [NoDottedEnds, List.forall_mem_cons, List.forall_mem_append, List.forall_mem_cons]
        at hnames
      refine passes hseen.1 hopening (by decide) scan fun scan' hscan => ?_
      rw [seenAll_append]
      have hindex := ihindex hseen.2.1 hnames.2.1 (hscan.le hle) trivial
      refine hindex.trans (passes hseen.2.2.1 hclosing (by decide) _ fun scan'' hscan' => ?_)
      exact ihrest hseen.2.2.2 hnames.2.2.2 (hscan'.le (hindex.le (hscan.le hle)))
        hscan'.beforeOpen
  | nextItem _ hcomma _ ihe ihrest =>
      rw [List.forall_mem_append, List.forall_mem_cons] at hseen
      rw [NoDottedEnds, List.forall_mem_append, List.forall_mem_cons] at hnames
      rw [seenAll_append]
      have he := ihe hseen.1 hnames.1 hle trivial
      refine he.trans (passes hseen.2.1 hcomma (by decide) _ fun scan' hscan => ?_)
      exact ihrest hseen.2.2 hnames.2.2 (hscan.le (he.le hle)) trivial

/-- A text is gone over as its tokens are, one after the other. -/
theorem Written.scanFrom_eq {tokens : List Token} {text : List Char} (h : Written tokens text)
    (hseen : ∀ token ∈ tokens, token.Seen)
    (hclosed : ∀ token ∈ tokens, token.kind ≠ .unclosedString) (scan : BracketScan) :
    scan.scanFrom .outside text = scan.seenAll tokens := by
  induction h generalizing scan with
  | nil => rw [BracketScan.scanFrom_nil, BracketScan.seenAll_nil]
  | @gap c tokens text hgap _ ih =>
      have hblank : ∀ d ∈ [c], isBlank d = true :=
        List.forall_mem_singleton.mpr (isBlank_of_isTokenGap hgap)
      rw [← List.singleton_append, BracketScan.scanFrom_append, BracketScan.scanFrom_blank hblank,
        BracketScan.past_blank hblank, ih hseen hclosed]
  | token token _ ih =>
      rw [List.forall_mem_cons] at hseen hclosed
      rw [BracketScan.scanFrom_append, hseen.1.past_outside hclosed.1, ih hseen.2 hclosed.2]
      rfl

/-! ## What reads balances -/

/-- The text reads as an expression or as a list of expressions. -/
def Readable (text : String) : Prop :=
  (∃ e, parseExpr text = .ok e) ∨ ∃ items, parseExprList text = .ok items

instance (text : String) : Decidable (Readable text) :=
  decidable_of_iff ((parseExpr text).toOption.isSome ∨ (parseExprList text).toOption.isSome) <| by
    rw [Readable]
    cases parseExpr text <;> cases parseExprList text <;> simp [Except.toOption]

/-- No name in the text ends in a dot. -/
def NamesUndotted (text : String) : Prop :=
  ∀ tokens, lex text = .ok tokens → NoDottedEnds tokens

instance (text : String) : Decidable (NamesUndotted text) :=
  decidable_of_iff (∀ tokens ∈ (lex text).toOption, NoDottedEnds tokens) <| by
    rw [NamesUndotted]
    cases lex text <;> simp [Except.toOption]

/-- The brackets of a text whose tokens derive from a phrase are fine. -/
theorem bracketErrors_of_derives {text : String} {tokens : List Token} {phrase : Phrase}
    (hlex : lex text = .ok tokens) (hderives : Derives phrase tokens)
    (hnames : NoDottedEnds tokens) (hfollows : phrase.Follows {}) :
    bracketErrors [text.toList] = [] := by
  have hseen := seen_of_mem_lexFrom hlex
  obtain ⟨⟨n, hopened, hclosed⟩, horder, hempty, -⟩ :=
    hderives.balances hseen hnames (le_refl 0) hfollows
  rw [bracketErrors_singleton,
    (written_of_lexFrom hlex).scanFrom_eq hseen hderives.ne_unclosedString]
  exact BracketScan.errors_eq_nil_iff.mpr ⟨hopened.trans hclosed.symm, horder, hempty⟩

theorem bracketErrors_of_readable {text : String} (hread : Readable text)
    (hnames : NamesUndotted text) : bracketErrors [text.toList] = [] := by
  obtain ⟨e, he⟩ | ⟨items, hitems⟩ := hread
  · obtain ⟨tokens, hlex, hspells⟩ := exists_spells_of_parseExpr he
    exact bracketErrors_of_derives hlex hspells (hnames tokens hlex) trivial
  · obtain ⟨tokens, hlex, ⟨rfl, -⟩ | ⟨-, hderives⟩⟩ := exists_tokens_of_parseExprList hitems
    · rw [bracketErrors_singleton, (written_of_lexFrom hlex).scanFrom_eq (by simp) (by simp)]
      rfl
    · exact bracketErrors_of_derives hlex hderives (hnames tokens hlex) trivial

/-- Rewriting negations finds no bracket problems. -/
theorem rewriteNegation_ne_bracket {text : List Char} {problem : BracketError} :
    rewriteNegation text ≠ .error (.bracket problem) := by
  fun_induction rewriteNegation text with
  | case1 | case2 =>
      intro h
      cases h
  | case3 _ _ _ _ _ _ ih => exact ih

/-- Nor does looking at the names. -/
theorem checkNames_ne_bracket {e : Expr} {problem : BracketError} :
    checkNames e ≠ .error (.bracket problem) := by
  rw [checkNames]
  split <;> simp

theorem forM_checkNames_ne_bracket {items : List Expr} {problem : BracketError} :
    items.forM checkNames ≠ .error (.bracket problem) := by
  induction items with
  | nil => exact nofun
  | cons e items ih =>
      intro h
      rcases bind_eq_error_iff.mp h with hnames | ⟨_, _, hrest⟩
      · exact checkNames_ne_bracket hnames
      · exact ih hrest

/-- Whatever a slot is read as, a bracket problem is one of the rewritten text: its brackets are
wrong, or it is not read. -/
theorem exists_text_of_bracket {α : Type} {read : String → Except ExprError α}
    {check : α → Except ExprError Unit} {fragment : String} {problem : BracketError}
    (hcheck : ∀ a, check a ≠ .error (.bracket problem))
    (h : (do let a ← read (← checkedText fragment); check a; return a)
      = .error (.bracket problem)) :
    ∃ text, normalizeText fragment = .ok text ∧
      (bracketErrors [text.toList] = [] → ∀ a, read text ≠ .ok a) := by
  rcases bind_eq_error_iff.mp h with h | ⟨text, htext, h⟩
  · rcases bind_eq_error_iff.mp h with h | ⟨text, htext, h⟩
    · exact absurd (eq_error_of_bind_pure h) rewriteNegation_ne_bracket
    · refine ⟨text, htext, fun hbrackets => ?_⟩
      rw [hbrackets] at h
      cases h
  · refine ⟨text, (checkedText_eq_ok_iff.mp htext).1, fun _ a hread => ?_⟩
    rcases bind_eq_error_iff.mp h with h | ⟨a', -, h⟩
    · rw [hread] at h
      cases h
    · rcases bind_eq_error_iff.mp h with h | ⟨_, _, h⟩
      · exact hcheck a' h
      · cases h

/-- The bracket check refuses nothing that the reader would take, as long as no name ends in a dot:
it has no problem with texts that read, however many stand in a statement, and where preparing a
slot stops at a bracket problem, the reader does not take the rewritten text either. -/
theorem bracketErrors_spares_readable :
    (∀ texts : List String, (∀ text ∈ texts, Readable text ∧ NamesUndotted text) →
      bracketErrors (texts.map String.toList) = []) ∧
    (∀ (fragment : String) (problem : BracketError),
      prepare fragment = .error (.bracket problem) →
      ∃ text, normalizeText fragment = .ok text ∧
        (NamesUndotted text → ∀ e, parseExpr text ≠ .ok e)) ∧
    (∀ (fragment : String) (problem : BracketError),
      prepareList fragment = .error (.bracket problem) →
      ∃ text, normalizeText fragment = .ok text ∧
        (NamesUndotted text → ∀ items, parseExprList text ≠ .ok items)) := by
  refine ⟨fun texts htexts => ?_, fun fragment problem h => ?_, fun fragment problem h => ?_⟩
  · refine bracketErrors_eq_nil_of_forall (List.forall_mem_map.mpr fun text htext => ?_)
    exact bracketErrors_of_readable (htexts text htext).1 (htexts text htext).2
  · obtain ⟨text, hnormal, hreject⟩ :=
      exists_text_of_bracket (fun _ => checkNames_ne_bracket) h
    refine ⟨text, hnormal, fun hnames e hread => hreject ?_ e hread⟩
    exact bracketErrors_of_readable (.inl ⟨e, hread⟩) hnames
  · obtain ⟨text, hnormal, hreject⟩ :=
      exists_text_of_bracket (fun _ => forM_checkNames_ne_bracket) h
    refine ⟨text, hnormal, fun hnames items hread => hreject ?_ items hread⟩
    exact bracketErrors_of_readable (.inr ⟨items, hread⟩) hnames

/-- Calls without arguments, calls in square brackets, parentheses in a string, an empty slot: the
brackets of these together are fine. An open call is refused, and it would not be read. -/
theorem bracketErrors_spares_readable_calls :
    bracketErrors (["f ( )", "a[g(1, \"(\")]", "", "x, (y)"].map String.toList) = [] ∧
    (∃ text, normalizeText "f(" = .ok text ∧ (NamesUndotted text → ∀ e, parseExpr text ≠ .ok e)) ∧
    ∃ text, normalizeText "x, )" = .ok text ∧
      (NamesUndotted text → ∀ items, parseExprList text ≠ .ok items) := by
  refine ⟨bracketErrors_spares_readable.1 _ (by decide +kernel),
    bracketErrors_spares_readable.2.1 _ .missingRight ?_,
    bracketErrors_spares_readable.2.2 _ .missingLeft ?_⟩
  · decide +kernel
  · decide +kernel

end BlockCode
