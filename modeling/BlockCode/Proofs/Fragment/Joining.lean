/- # Lists that are joined

Texts that are fine by themselves are fine as a list, and the list has the expressions that the
texts have. What stands in front of a separator leaves nothing open: strings are closed, no marker
of a negation is left, the brackets rest and every token has ended. So each stage goes over the rest
as if that stood alone. A negation behind the separator finds its operand there, because a blank
ends every operand that is looked for backwards.
-/

import Mathlib.Data.List.Forall2
import BlockCode.Proofs.Expr.Places
import BlockCode.Proofs.Fragment.Backwards

namespace BlockCode

/-- What stands between the texts of a list. -/
def listSeparator : List Char :=
  [',', ' ']

theorem breaks_listSeparator (rest : List Char) : Breaks (listSeparator ++ rest) :=
  breaks_cons.mpr (by decide)

/-! ## Tokens in front of a break -/

theorem stringTail_append {text tail : List Char} (h : stringTail text = (tail, true))
    (rest : List Char) : stringTail (text ++ rest) = (tail, true) := by
  fun_induction stringTail text generalizing tail with
  | case1 => cases h
  | case2 c text hquote =>
      rw [List.cons_append, stringTail.eq_def]
      dsimp only
      rw [if_pos hquote, h]
  | case3 c hquote hslash => cases h
  | case4 c hquote hslash d text hfeed => cases h
  | case5 c hquote hslash d text hfeed tail' closed htext ih =>
      obtain ⟨rfl, rfl⟩ := Prod.mk.inj h
      rw [List.cons_append, List.cons_append, stringTail.eq_def]
      dsimp only
      rw [if_neg hquote, if_pos hslash, if_neg hfeed, ih htext]
  | case6 c text hquote hslash tail' closed htext ih =>
      obtain ⟨rfl, rfl⟩ := Prod.mk.inj h
      rw [List.cons_append, stringTail.eq_def]
      dsimp only
      rw [if_neg hquote, if_neg hslash, ih htext]

theorem tokenTail?_append_of_closed {c : Char} {text rest tail : List Char} {kind : TokenKind}
    (hrest : Breaks rest) (h : tokenTail? c text = some (kind, tail))
    (hkind : kind ≠ .unclosedString) : tokenTail? c (text ++ rest) = some (kind, tail) := by
  by_cases hc : c = '"'
  · subst hc
    rw [tokenTail?_quote] at h ⊢
    obtain ⟨rfl, rfl⟩ := Prod.mk.inj (Option.some.inj h)
    cases hclosed : (stringTail text).2 with
    | false =>
        rw [hclosed] at hkind
        exact absurd rfl hkind
    | true => rw [@stringTail_append text _ (Prod.ext rfl hclosed) rest, if_pos rfl]
  · rw [tokenTail?_append_eq hc hrest, h]

/-- The tokens of a closed text are read in front of every break. -/
theorem lexesBefore_of_lexFrom {text rest : List Char} (hrest : Breaks rest) {offset : Nat}
    {tokens : List Token} (h : lexFrom offset text = .ok tokens)
    (hstrings : ∀ token ∈ tokens, token.kind ≠ .unclosedString) :
    LexesBefore rest offset text tokens := by
  rw [lexFrom_eq_ok_iff] at h
  induction h with
  | nil => exact .nil
  | gap hgap _ ih => exact .gap hgap (ih hstrings)
  | token htail _ ih =>
      rw [List.forall_mem_cons] at hstrings
      refine .cons ?_ (ih hstrings.2)
      rw [← List.append_assoc]
      exact tokenTail?_append_of_closed hrest htail hstrings.1

/-! ## Negations behind a separator -/

theorem past_of_closesFrom {place : Quotation} {text : List Char}
    (h : closesFrom place text = true) : place.past isDoubleQuote text = .outside := by
  induction text generalizing place with
  | nil => exact eq_of_beq h
  | cons c text ih =>
      rw [closesFrom, Bool.and_eq_true] at h
      rw [Quotation.past_cons, Quotation.next_isDoubleQuote, ih h.2]

/-- No marker reaches over a break. -/
theorem afterWord?_negationMarker_append {text rest : List Char} (hrest : Breaks rest)
    (h : afterWord? negationMarker text = none) :
    afterWord? negationMarker (text ++ rest) = none := by
  have hmarker : ∀ c ∈ rest.head?, c ∉ negationMarker := hrest.head? (by decide)
  have hstarts := @startsWithWord_append_eq negationMarker text rest hmarker
  rw [startsWithWord, startsWithWord, h] at hstarts
  exact Option.not_isSome_iff_eq_none.mp (by rw [hstarts]; decide)

/-- Behind a text without markers the first marker is that of the rest. -/
theorem splitAtMarkerFrom?_append {place : Quotation} {text rest : List Char}
    (hrest : Breaks rest) (h : splitAtMarkerFrom? place text = none) :
    splitAtMarkerFrom? place (text ++ rest) =
      (splitAtMarkerFrom? (place.past isDoubleQuote text) rest).map
        fun (front, behind) => (text ++ front, behind) := by
  induction text generalizing place with
  | nil =>
      rw [List.nil_append, Quotation.past_nil]
      cases splitAtMarkerFrom? place rest <;> rfl
  | cons c text ih =>
      obtain ⟨hmarker, htext⟩ := splitAtMarkerFrom?_cons_eq_none_iff.mp h
      rw [List.cons_append, splitAtMarkerFrom?_cons fun hplace => ?_, ih htext, Quotation.past_cons,
        Quotation.next_isDoubleQuote, Option.map_map]
      · rfl
      · exact afterWord?_negationMarker_append hrest (hmarker hplace)

/-- In front of a break the first marker of a text stays the first. -/
theorem splitAtMarkerFrom?_append_of_eq_some {place : Quotation}
    {text front behind rest : List Char} (hrest : Breaks rest)
    (h : splitAtMarkerFrom? place text = some (front, behind)) :
    splitAtMarkerFrom? place (text ++ rest) = some (front, behind ++ rest) := by
  induction text generalizing place front behind with
  | nil => cases h
  | cons c text ih =>
      by_cases hmarker : place = .outside → afterWord? negationMarker (c :: text) = none
      · rw [splitAtMarkerFrom?_cons hmarker] at h
        obtain ⟨⟨front', behind'⟩, hfound, heq⟩ := Option.map_eq_some_iff.mp h
        obtain ⟨rfl, rfl⟩ := Prod.mk.inj heq
        rw [List.cons_append, splitAtMarkerFrom?_cons fun hplace => ?_, ih hfound]
        · rfl
        · exact afterWord?_negationMarker_append hrest (hmarker hplace)
      · obtain ⟨rfl, hfound⟩ := Classical.not_imp.mp hmarker
        obtain ⟨found, hfound⟩ := Option.ne_none_iff_exists'.mp hfound
        have hlong : afterWord? negationMarker (c :: (text ++ rest)) = some (found ++ rest) := by
          rw [afterWord?_eq_some_iff] at hfound ⊢
          rw [← List.cons_append, hfound, List.append_assoc]
        simp only [splitAtMarkerFrom?, hfound] at h
        obtain ⟨rfl, rfl⟩ := Prod.mk.inj (Option.some.inj h)
        simp only [List.cons_append, splitAtMarkerFrom?, hlong]

theorem bracketedLength?_append {opening closing : Char} {depth n : Nat} {text : List Char}
    (h : bracketedLength? opening closing depth text = some n) (rest : List Char) :
    bracketedLength? opening closing depth (text ++ rest) = some n := by
  fun_induction bracketedLength? opening closing depth text generalizing n with
  | case1 => cases h
  | case2 depth c text hclosing ih =>
      obtain ⟨m, hm, rfl⟩ := Option.map_eq_some_iff.mp h
      rw [List.cons_append, bracketedLength?, if_pos hclosing, ih hm, Option.map_some]
  | case3 depth c text hclosing hopening hdepth =>
      rw [List.cons_append, bracketedLength?, if_neg hclosing, if_pos hopening, if_pos hdepth, h]
  | case4 depth c text hclosing hopening hdepth ih =>
      obtain ⟨m, hm, rfl⟩ := Option.map_eq_some_iff.mp h
      rw [List.cons_append, bracketedLength?, if_neg hclosing, if_pos hopening, if_neg hdepth,
        ih hm, Option.map_some]
  | case5 depth c text hclosing hopening ih =>
      obtain ⟨m, hm, rfl⟩ := Option.map_eq_some_iff.mp h
      rw [List.cons_append, bracketedLength?, if_neg hclosing, if_neg hopening, ih hm,
        Option.map_some]

/-- A blank ends the operand that is looked for backwards. -/
theorem operandLength?_append {reversed : List Char} {n : Nat}
    (h : operandLength? reversed = some n) (rest : List Char) :
    operandLength? (reversed ++ ' ' :: rest) = some n := by
  cases reversed with
  | nil => cases h
  | cons last reversed =>
      obtain ⟨m, hbracketed, rfl⟩ := Option.map_eq_some_iff.mp h
      have hrun {m : Nat} (hm : m ≤ (last :: reversed).length) :
          ((last :: (reversed ++ ' ' :: rest)).drop m).takeWhile isOperandChar =
            ((last :: reversed).drop m).takeWhile isOperandChar := by
        rw [← List.cons_append, List.drop_append_of_le_length hm, List.takeWhile_append,
          List.takeWhile_cons_of_neg (by decide), List.append_nil]
        split
        · next hall => exact ((List.takeWhile_prefix _).eq_of_length hall).symm
        · rfl
      have hlong {opening closing : Char}
          (h : bracketedLength? opening closing 0 (last :: reversed) = some m) :
          m ≤ (last :: reversed).length ∧
            bracketedLength? opening closing 0 (last :: (reversed ++ ' ' :: rest)) = some m :=
        ⟨bracketedLength?_le h, bracketedLength?_append h _⟩
      rw [List.cons_append, operandLength?]
      split at hbracketed
      · next hround =>
        obtain ⟨hle, hlong⟩ := hlong hbracketed
        rw [if_pos hround, hlong, Option.map_some, hrun hle]
      · next hround =>
        split at hbracketed
        · next hsquare =>
          obtain ⟨hle, hlong⟩ := hlong hbracketed
          rw [if_neg hround, if_pos hsquare, hlong, Option.map_some, hrun hle]
        · next hsquare =>
          split at hbracketed
          · next hchar =>
            cases hbracketed
            rw [if_neg hround, if_neg hsquare, if_pos hchar, Option.map_some, hrun (Nat.zero_le _)]
          · cases hbracketed

/-- So a negation behind a separator moves as if nothing stood in front of that. -/
theorem negateLast?_append {front negated : List Char} (h : negateLast? front = some negated)
    (text : List Char) :
    negateLast? (text ++ listSeparator ++ front) = some (text ++ listSeparator ++ negated) := by
  obtain ⟨n, hlength, rfl⟩ := Option.map_eq_some_iff.mp h
  have hle := operandLength?_le hlength
  have hreversed : (text ++ listSeparator ++ front).reverse.dropWhile isBlank =
      front.reverse.dropWhile isBlank ++ ' ' :: ',' :: text.reverse := by
    have hne : ¬ (front.reverse.dropWhile isBlank).isEmpty = true := by
      intro hnil
      rw [List.isEmpty_iff.mp hnil] at hlength
      cases hlength
    rw [List.reverse_append, List.dropWhile_append, if_neg hne, listSeparator, List.reverse_append]
    rfl
  rw [negateLast?, hreversed, operandLength?_append hlength, Option.map_some,
    List.drop_append_of_le_length hle, List.take_append_of_le_length hle, List.reverse_append]
  simp [listSeparator]

theorem rewriteNegation_behind {text rest rewritten : List Char}
    (hmarker : splitAtMarkerFrom? .outside text = none)
    (houtside : Quotation.outside.past isDoubleQuote text = .outside)
    (h : rewriteNegation rest = .ok rewritten) :
    rewriteNegation (text ++ listSeparator ++ rest) = .ok (text ++ listSeparator ++ rewritten) := by
  have hsplit (rest : List Char) : splitAtMarkerFrom? .outside (text ++ listSeparator ++ rest) =
      (splitAtMarkerFrom? .outside rest).map
        fun (front, behind) => (text ++ listSeparator ++ front, behind) := by
    rw [List.append_assoc, splitAtMarkerFrom?_append (breaks_listSeparator rest) hmarker, houtside,
      listSeparator, List.cons_append, splitAtMarkerFrom?_cons fun _ => rfl, List.cons_append,
      splitAtMarkerFrom?_cons fun _ => rfl, List.nil_append, Option.map_map, Option.map_map]
    simp only [List.append_assoc]
    rfl
  fun_induction rewriteNegation rest with
  | case1 rest hnone =>
      cases h
      exact rewriteNegation_eq_self (by rw [hsplit, hnone, Option.map_none])
  | case2 => cases h
  | case3 rest front behind hfound negated hnegated ih =>
      have hjoined := hsplit rest
      rw [hfound, Option.map_some] at hjoined
      rw [rewriteNegation_of_split hjoined, negateLast?_append hnegated]
      dsimp only
      rw [List.append_assoc, ih h]

/-- Texts are rewritten one by one. -/
theorem rewriteNegation_append {text rest rewritten rewritten' : List Char}
    (h : rewriteNegation text = .ok rewritten) (hclosed : closesFrom .outside rewritten = true)
    (hrest : rewriteNegation rest = .ok rewritten') :
    rewriteNegation (text ++ listSeparator ++ rest) =
      .ok (rewritten ++ listSeparator ++ rewritten') := by
  fun_induction rewriteNegation text with
  | case1 text hnone =>
      cases h
      exact rewriteNegation_behind hnone (past_of_closesFrom hclosed) hrest
  | case2 => cases h
  | case3 text front behind hfound negated hnegated ih =>
      have hjoined := splitAtMarkerFrom?_append_of_eq_some (breaks_listSeparator rest) hfound
      rw [List.append_assoc, rewriteNegation_of_split hjoined, hnegated]
      dsimp only
      rw [← List.append_assoc, ← List.append_assoc, ih h]

/-! ## Brackets behind a separator -/

/-- The comma of a separator follows nothing that is open. -/
theorem BracketScan.Rests.scanFrom_listSeparator {scan : BracketScan} (h : scan.Rests) :
    (scan.scanFrom .outside listSeparator).Rests where
  errors_eq := h.errors_eq
  beforeOpen_eq := rfl

theorem bracketErrors_append {text rest : List Char}
    (houtside : Quotation.outside.past isDoubleQuote text = .outside)
    (h : bracketErrors [text] = []) (hrest : bracketErrors [rest] = []) :
    bracketErrors [text ++ listSeparator ++ rest] = [] := by
  rw [bracketErrors_singleton] at h hrest ⊢
  have hrests := (BracketScan.rests_start.ordered.scanFrom .outside text).rests h
  have hpast : Quotation.outside.past isDoubleQuote (text ++ listSeparator) = .outside := by
    rw [Quotation.past_append, houtside]
    rfl
  rw [BracketScan.scanFrom_append, BracketScan.scanFrom_append, hpast, houtside]
  exact (hrests.scanFrom_listSeparator.milder.scanFrom .outside rest).errors_eq_nil hrest

/-! ## Texts that are read one by one -/

/-- A separator is read as its comma. -/
theorem lexesBefore_listSeparator (rest : List Char) (offset : Nat) :
    LexesBefore rest offset listSeparator [.spelled .comma offset [',']] :=
  show LexesBefore rest offset ([','] ++ [' ']) ([.spelled .comma offset [',']] ++ []) from
    .append (.single rfl) (.gap rfl .nil)

/-- The text is rewritten into one whose brackets are in order and whose tokens have the words of
these. -/
def TurnsInto (text : List Char) (tokens : List Token) : Prop :=
  ∃ rewritten tokens', rewriteNegation (foldGlyphs text) = .ok rewritten ∧
    bracketErrors [rewritten] = [] ∧ lexFrom 0 rewritten = .ok tokens' ∧
      (∀ token ∈ tokens', token.kind ≠ .unclosedString) ∧
        tokens'.map Token.word = tokens.map Token.word

theorem foldGlyphs_append_listSeparator {text : List Char}
    (h : closesFrom .outside (foldGlyphs text) = true) (rest : List Char) :
    foldGlyphs (text ++ listSeparator ++ rest) =
      foldGlyphs text ++ listSeparator ++ foldGlyphs rest := by
  rw [List.append_assoc, foldGlyphs, foldGlyphsFrom_append (breaks_listSeparator rest) h,
    List.append_assoc]
  exact congrArg _ (foldGlyphs_append_of_forall (by decide) rest)

theorem TurnsInto.append {text rest : List Char} {tokens tokens' : List Token} {comma : Token}
    (h : TurnsInto text tokens) (hcomma : comma.word = (.comma, ","))
    (hrest : TurnsInto rest tokens') :
    TurnsInto (text ++ listSeparator ++ rest) (tokens ++ comma :: tokens') := by
  obtain ⟨front, ws, hfront, hbrackets, hlex, hstrings, hwords⟩ := h
  obtain ⟨behind, vs, hbehind, hbrackets', hlex', hstrings', hwords'⟩ := hrest
  have hclosed := closesFrom_of_lexFrom hlex hstrings
  have hlexes := (lexesBefore_of_lexFrom (breaks_listSeparator behind) hlex hstrings).append
    (lexesBefore_listSeparator behind _)
  obtain ⟨vs', hread, hsame⟩ := exists_lexFrom_eq hlex' (0 + utf8Length (front ++ listSeparator))
  refine ⟨front ++ listSeparator ++ behind, _, ?_,
    bracketErrors_append (past_of_closesFrom hclosed) hbrackets hbrackets',
    hlexes.trans (congrArg _ hread), ?_, ?_⟩
  · rw [foldGlyphs_append_listSeparator (closesFrom_of_rewriteNegation hfront hclosed)]
    exact rewriteNegation_append hfront hclosed hbehind
  · have hkinds : ∀ word ∈ vs'.map Token.word, word.1 ≠ .unclosedString := by
      rw [hsame]
      exact List.forall_mem_map.mpr hstrings'
    simp only [List.forall_mem_append, List.forall_mem_singleton]
    exact ⟨⟨hstrings, nofun⟩, fun token htoken => hkinds _ (List.mem_map_of_mem htoken)⟩
  · rw [List.map_append, List.map_append, List.map_append, List.map_cons, List.map_cons, hwords,
      hcomma, hsame, hwords', List.append_assoc]
    rfl

theorem exists_turnsInto_of_prepare {text : String} {e : Expr} (h : prepare text = .ok e) :
    ∃ tokens, TurnsInto text.toList tokens ∧ Spells tokens e ∧ checkNames e = .ok () := by
  obtain ⟨rewritten, hchecked, hparse, hnames⟩ := prepare_eq_ok_iff.mp h
  obtain ⟨hnormal, hbrackets⟩ := checkedText_eq_ok_iff.mp hchecked
  obtain ⟨tokens, hlex, hspells⟩ := exists_spells_of_parseExpr hparse
  exact ⟨tokens, ⟨rewritten.toList, tokens, normalizeText_eq_ok_iff.mp hnormal, hbrackets, hlex,
    hspells.ne_unclosedString, rfl⟩, hspells, hnames⟩

theorem exists_turnsInto_intercalate {text : String} {texts : List String}
    (h : ∀ text' ∈ text :: texts, ∃ e, prepare text' = .ok e) :
    ∃ tokens exprs, TurnsInto (", ".intercalate (text :: texts)).toList tokens ∧
      Derives (.items exprs) tokens ∧ (∀ e ∈ exprs, checkNames e = .ok ()) ∧
        List.Forall₂ (fun text e => prepare text = .ok e) (text :: texts) exprs := by
  induction texts generalizing text with
  | nil =>
      obtain ⟨e, he⟩ := h text (.head _)
      obtain ⟨tokens, hturns, hspells, hnames⟩ := exists_turnsInto_of_prepare he
      rw [String.intercalate_singleton]
      exact ⟨tokens, [e], hturns, .lastItem hspells, List.forall_mem_singleton.mpr hnames,
        .cons he .nil⟩
  | cons next texts ih =>
      rw [List.forall_mem_cons] at h
      obtain ⟨⟨e, he⟩, hrest⟩ := h
      obtain ⟨tokens, hturns, hspells, hnames⟩ := exists_turnsInto_of_prepare he
      obtain ⟨tokens', exprs, hturns', hderives, hnames', hall⟩ := ih hrest
      rw [String.intercalate_cons_cons, String.toList_append, String.toList_append]
      have hcomma : Token.word ⟨.comma, default, ","⟩ = (.comma, ",") := rfl
      exact ⟨_, e :: exprs, hturns.append hcomma hturns',
        .nextItem hspells rfl hderives, List.forall_mem_cons.mpr ⟨hnames, hnames'⟩, .cons he hall⟩

/-! ## Lists of tokens -/

theorem Derives.readsItems {items : List Expr} {ws : List Token}
    (h : Derives (.items items) ws) : (parseItems ws).Reads items [] := by
  induction items generalizing ws with
  | nil => cases h
  | cons e items ih =>
      cases h with
      | lastItem he =>
          have hread := he.readThrough.alone ends_nil
          rw [List.append_nil] at hread
          exact reads_parseItems.mpr ⟨e, [], hread, rfl, rfl⟩
      | nextItem he hcomma hrest =>
          refine reads_parseItems.mpr
            ⟨e, _, he.readThrough.before (.inr (.inr hcomma)) _, ?_⟩
          dsimp only
          rw [if_pos hcomma]
          exact ⟨items, ih hrest, rfl⟩

theorem parseListTokens_of_derives {items : List Expr} {ws : List Token}
    (h : Derives (.items items) ws) : parseListTokens ws = .ok items := by
  obtain ⟨hlt, hread⟩ := h.readsItems
  cases ws with
  | nil => cases hlt
  | cons token ws =>
      rw [parseListTokens, hread]
      rfl

/-- A text that turns into the items of a list is read as these items, with the places that they
have in it. -/
theorem TurnsInto.exists_prepareList {text : String} {tokens : List Token} {items : List Expr}
    (h : TurnsInto text.toList tokens) (hderives : Derives (.items items) tokens)
    (hnames : ∀ e ∈ items, checkNames e = .ok ()) :
    ∃ items', prepareList text = .ok items' ∧
      items'.map Expr.unplaced = items.map Expr.unplaced := by
  obtain ⟨rewritten, tokens', hrewrite, hbrackets, hlex, -, hwords⟩ := h
  obtain ⟨items', hderives', hsame⟩ := hderives.movesTo hwords
  refine ⟨items', prepareList_eq_ok_iff.mpr ⟨String.ofList rewritten, ?_, ?_, ?_⟩, hsame⟩
  · rw [checkedText_eq_ok_iff, normalizeText_eq_ok_iff, String.toList_ofList]
    exact ⟨hrewrite, hbrackets⟩
  · rw [parseExprList, lexExpr, lex, String.toList_ofList, hlex]
    exact parseListTokens_of_derives hderives'
  · have hunplaced : ∀ e ∈ items'.map Expr.unplaced, checkNames e = .ok () := by
      rw [hsame]
      exact List.forall_mem_map.mpr fun e he => (checkNames_unplaced e).trans (hnames e he)
    exact forM_eq_ok_iff.mpr fun e he =>
      (checkNames_unplaced e).symm.trans (List.forall_mem_map.mp hunplaced e he)

/-- Texts that are read by themselves are read as a list when they are joined, each as the same
expression but for the places in the text. -/
theorem prepareList_intercalate (texts : List String)
    (h : ∀ text ∈ texts, ∃ e, prepare text = .ok e) :
    ∃ items, prepareList (", ".intercalate texts) = .ok items ∧
      List.Forall₂ (fun text item => ∃ e, prepare text = .ok e ∧ item.unplaced = e.unplaced)
        texts items := by
  cases texts with
  | nil => exact ⟨[], by with_unfolding_all rfl, .nil⟩
  | cons text texts =>
      obtain ⟨tokens, exprs, hturns, hderives, hnames, hall⟩ := exists_turnsInto_intercalate h
      obtain ⟨items, hread, hsame⟩ := hturns.exists_prepareList hderives hnames
      refine ⟨items, hread, ?_⟩
      have hunplaced : List.Forall₂ (fun text e => ∃ e', prepare text = .ok e' ∧ e = e'.unplaced)
          (text :: texts) (exprs.map Expr.unplaced) :=
        List.forall₂_map_right_iff.mpr (hall.imp fun _ e he => ⟨e, he, rfl⟩)
      rw [← hsame] at hunplaced
      exact List.forall₂_map_right_iff.mp hunplaced

theorem prepareList_intercalate_negations :
    (∀ text ∈ ["f(a, b)", "xでない", "「,」"], ∃ e, prepare text = .ok e) ∧
      ∃ items, prepareList (", ".intercalate ["f(a, b)", "xでない", "「,」"]) = .ok items ∧
        List.Forall₂ (fun text item => ∃ e, prepare text = .ok e ∧ item.unplaced = e.unplaced)
          ["f(a, b)", "xでない", "「,」"] items := by
  have h : ∀ text ∈ ["f(a, b)", "xでない", "「,」"], ∃ e, prepare text = .ok e := by
    simp only [List.forall_mem_cons]
    refine ⟨⟨_, by with_unfolding_all rfl⟩, ⟨_, by with_unfolding_all rfl⟩,
      ⟨_, by with_unfolding_all rfl⟩, nofun⟩
  exact ⟨h, prepareList_intercalate _ h⟩

end BlockCode
