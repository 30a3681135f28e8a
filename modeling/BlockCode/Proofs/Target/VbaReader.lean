/- # Reading expressions by the operator rules of VBA

VBA does not group operators as the reader of this library does. Its rules are, from the tightest
operator to the loosest: the power; the minus sign in front of an operand; multiplication and
division; division that rounds; the remainder; addition and subtraction; concatenation; the
comparisons; negation; conjunction; disjunction. Operators of one strength group from the left, a
power too.

The reader below follows these rules and nothing else. It goes through the tokens once. Operators
that still wait for their right operand are pending, the latest in front. An operator takes over
every pending one that binds at least as tightly as itself, and the end of a parenthesis takes
over all of them.
-/

import BlockCode.Expr.Basic
import BlockCode.Token.Lexer

namespace BlockCode.VbaReading

/-- Operators between two operands. -/
inductive Operator where
  | power
  | multiply
  | divide
  | quotient
  | remainder
  | add
  | subtract
  | concatenate
  | equal
  | notEqual
  | lessThan
  | lessEqual
  | greaterThan
  | greaterEqual
  | and
  | or
  deriving DecidableEq, Repr

/-- How tightly an operator between two operands binds. -/
def Operator.strength : Operator → Nat
  | .power => 11
  | .multiply | .divide => 9
  | .quotient => 8
  | .remainder => 7
  | .add | .subtract => 6
  | .concatenate => 5
  | .equal | .notEqual | .lessThan | .lessEqual | .greaterThan | .greaterEqual => 4
  | .and => 2
  | .or => 1

/-- How tightly an operator in front of an operand binds. -/
def signStrength : UnaryOp → Nat
  | .negate => 10
  | .not => 3

/-- What an expression denotes: its operations without parentheses. An element of an array and a
call look the same, so both are applications. -/
inductive Tree where
  | number (text : String)
  | string (contents : String)
  | bool (value : Bool)
  | name (word : String)
  | apply (base : Tree) (args : List Tree)
  | unary (op : UnaryOp) (operand : Tree)
  | binary (op : Operator) (left : Tree) (right : Tree)
  deriving Repr

/-- Whether arguments may stand behind the tree. -/
def Tree.isCallable : Tree → Bool
  | .name _ | .apply .. => true
  | _ => false

/-- The tokens of VBA expressions. A minus sign is one token, whichever operator it stands for. -/
inductive Token where
  | number (text : String)
  | string (contents : String)
  | bool (value : Bool)
  | name (word : String)
  | operator (op : Operator)
  | not
  | leftParen
  | rightParen
  | comma
  deriving DecidableEq, Repr

/-- Whether a word may go on with the character. A dotted name is one word. -/
def isWordPart (c : Char) : Bool :=
  isNamePart c || c == '.'

/-- Whether a number may go on with the character. -/
def isNumberPart (c : Char) : Bool :=
  isAsciiDigit c || c == '.'

/-- The words that are no names, in lower case. They are recognised in any case. -/
def keywords : List (String × Token) :=
  [("mod", .operator .remainder), ("and", .operator .and), ("or", .operator .or), ("not", .not),
    ("true", .bool true), ("false", .bool false)]

/-- The token that a word is. -/
def wordToken (word : List Char) : Token :=
  (keywords.lookup (lowerAscii (String.ofList word))).getD (.name (String.ofList word))

/-- The contents of a string literal up to the quote that closes it, and what follows that
quote. Two quotes in a row are one that belongs to the contents. -/
def stringBody : List Char → Option (List Char × List Char)
  | [] => none
  | c :: rest =>
    if c == '"' then
      match rest with
      | [] => some ([], [])
      | d :: behind =>
        if d == '"' then (stringBody behind).map fun (contents, behind) => ('"' :: contents, behind)
        else some ([], d :: behind)
    else (stringBody rest).map fun (contents, behind) => (c :: contents, behind)

/-- The operator or delimiter at the front, and what follows it. -/
def symbol? : Char → List Char → Option (Token × List Char)
  | '(', rest => some (.leftParen, rest)
  | ')', rest => some (.rightParen, rest)
  | ',', rest => some (.comma, rest)
  | '^', rest => some (.operator .power, rest)
  | '*', rest => some (.operator .multiply, rest)
  | '/', rest => some (.operator .divide, rest)
  | '\\', rest => some (.operator .quotient, rest)
  | '+', rest => some (.operator .add, rest)
  | '-', rest => some (.operator .subtract, rest)
  | '&', rest => some (.operator .concatenate, rest)
  | '=', rest => some (.operator .equal, rest)
  | '<', '>' :: rest => some (.operator .notEqual, rest)
  | '<', '=' :: rest => some (.operator .lessEqual, rest)
  | '<', rest => some (.operator .lessThan, rest)
  | '>', '=' :: rest => some (.operator .greaterEqual, rest)
  | '>', rest => some (.operator .greaterThan, rest)
  | _, _ => none

/-- The token that starts with the character, and what follows it. -/
def nextToken? (c : Char) (rest : List Char) : Option (Token × List Char) :=
  if isNameStart c then
    some (wordToken (c :: rest.takeWhile isWordPart), rest.dropWhile isWordPart)
  else if isAsciiDigit c then
    some (.number (String.ofList (c :: rest.takeWhile isNumberPart)),
      rest.dropWhile isNumberPart)
  else if c == '"' then
    (stringBody rest).map fun (contents, behind) => (.string (String.ofList contents), behind)
  else symbol? c rest

theorem length_of_stringBody {text contents behind : List Char}
    (h : stringBody text = some (contents, behind)) : behind.length ≤ text.length := by
  fun_induction stringBody text generalizing contents with
  | case1 => cases h
  | case2 => cases h; simp
  | case3 c hc d rest hd ih =>
      obtain ⟨⟨contents', behind'⟩, hbody, heq⟩ := Option.map_eq_some_iff.mp h
      cases heq
      have hle := ih hbody
      simp only [List.length_cons]
      omega
  | case4 => cases h; simp
  | case5 c rest hc ih =>
      obtain ⟨⟨contents', behind'⟩, hbody, heq⟩ := Option.map_eq_some_iff.mp h
      cases heq
      have hle := ih hbody
      simp only [List.length_cons]
      omega

theorem length_of_symbol? {c : Char} {rest behind : List Char} {token : Token}
    (h : symbol? c rest = some (token, behind)) : behind.length ≤ rest.length := by
  unfold symbol? at h
  split at h <;> cases h <;> simp

/-- A token takes nothing that is not there. -/
theorem length_of_nextToken? {c : Char} {rest behind : List Char} {token : Token}
    (h : nextToken? c rest = some (token, behind)) : behind.length ≤ rest.length := by
  rw [nextToken?] at h
  split at h
  · obtain ⟨rfl, rfl⟩ := Prod.mk.inj (Option.some.inj h)
    exact (List.dropWhile_suffix _).length_le
  · split at h
    · obtain ⟨rfl, rfl⟩ := Prod.mk.inj (Option.some.inj h)
      exact (List.dropWhile_suffix _).length_le
    · split at h
      · obtain ⟨⟨contents, behind'⟩, hbody, heq⟩ := Option.map_eq_some_iff.mp h
        obtain ⟨rfl, rfl⟩ := Prod.mk.inj heq
        exact length_of_stringBody hbody
      · exact length_of_symbol? h

/-- The tokens of a text. -/
def lex : List Char → Option (List Token)
  | [] => some []
  | c :: rest =>
    if c == ' ' then lex rest
    else
      match _hnext : nextToken? c rest with
      | none => none
      | some (token, behind) => (lex behind).map (token :: ·)
termination_by text => text.length
decreasing_by
  · simp
  · have := length_of_nextToken? _hnext
    simp only [List.length_cons]
    omega

/-- An operator that waits for the operand behind it. -/
inductive Pending where
  | unary (op : UnaryOp)
  | binary (op : Operator) (left : Tree)
  deriving Repr

namespace Pending

def strength : Pending → Nat
  | .unary op => signStrength op
  | .binary op _ => op.strength

/-- The operation, now that its operand is there. -/
def around : Pending → Tree → Tree
  | .unary op, operand => .unary op operand
  | .binary op left, right => .binary op left right

end Pending

/-- The pending operators that bind at least as tightly as `strength` take the operand, one after
the other. -/
def takeOver (strength : Nat) : List Pending → Tree → Tree × List Pending
  | [], operand => (operand, [])
  | p :: pending, operand =>
    if strength ≤ p.strength then takeOver strength pending (p.around operand)
    else (operand, p :: pending)

/-- All pending operators take the operand. -/
def takeOverAll (pending : List Pending) (operand : Tree) : Tree :=
  pending.foldl (fun operand p => p.around operand) operand

/-- What an open parenthesis belongs to. -/
inductive Opening where
  | group
  | arguments (base : Tree) (args : List Tree)
  deriving Repr

/-- How far the tokens are read: the open parentheses with the operators that wait outside of
them, the operators that wait inside, and the operand that was read last unless one is to come. -/
structure State where
  outer : List (Opening × List Pending)
  pending : List Pending
  operand : Option Tree
  deriving Repr

/-- Reads a token where an operand is to come. -/
def stepBefore (outer : List (Opening × List Pending)) (pending : List Pending) :
    Token → Option State
  | .number text => some ⟨outer, pending, some (.number text)⟩
  | .string contents => some ⟨outer, pending, some (.string contents)⟩
  | .bool value => some ⟨outer, pending, some (.bool value)⟩
  | .name word => some ⟨outer, pending, some (.name word)⟩
  | .operator .subtract => some ⟨outer, .unary .negate :: pending, none⟩
  | .not => some ⟨outer, .unary .not :: pending, none⟩
  | .leftParen => some ⟨(.group, pending) :: outer, [], none⟩
  | .rightParen =>
    match outer, pending with
    | (.arguments base [], saved) :: outer, [] => some ⟨outer, saved, some (.apply base [])⟩
    | _, _ => none
  | _ => none

/-- Reads a token behind an operand. -/
def stepBehind (outer : List (Opening × List Pending)) (pending : List Pending)
    (operand : Tree) : Token → Option State
  | .operator op =>
    let (left, waiting) := takeOver op.strength pending operand
    some ⟨outer, .binary op left :: waiting, none⟩
  | .leftParen =>
    if operand.isCallable then some ⟨(.arguments operand [], pending) :: outer, [], none⟩ else none
  | .comma =>
    match outer with
    | (.arguments base args, saved) :: outer =>
      some ⟨(.arguments base (args ++ [takeOverAll pending operand]), saved) :: outer, [], none⟩
    | _ => none
  | .rightParen =>
    match outer with
    | (.group, saved) :: outer => some ⟨outer, saved, some (takeOverAll pending operand)⟩
    | (.arguments base args, saved) :: outer =>
      some ⟨outer, saved, some (.apply base (args ++ [takeOverAll pending operand]))⟩
    | [] => none
  | _ => none

/-- Reads one token. -/
def step (s : State) (token : Token) : Option State :=
  match s.operand with
  | none => stepBefore s.outer s.pending token
  | some operand => stepBehind s.outer s.pending operand token

/-- Reads the tokens one after the other. -/
def run (s : State) (tokens : List Token) : Option State :=
  tokens.foldlM step s

/-- What the tokens denote. -/
def readTokens (tokens : List Token) : Option Tree :=
  match run ⟨[], [], none⟩ tokens with
  | some ⟨[], pending, some operand⟩ => some (takeOverAll pending operand)
  | _ => none

/-- What the text denotes by the operator rules of VBA. -/
def read (text : String) : Option Tree :=
  lex text.toList >>= readTokens

/-- A power is read from the left, and multiplication before the remainder. -/
example : read "a ^ b ^ c" =
    some (.binary .power (.binary .power (.name "a") (.name "b")) (.name "c")) := by
  with_unfolding_all rfl

end BlockCode.VbaReading
