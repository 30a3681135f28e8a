/- # Statement kinds

The closed set of statements that a line of a program can be. A block statement is not one
node: its header, its continuations and its closing line are neighbours among the statements
of one list, and each header or continuation owns the lines nested under it.
-/

namespace BlockCode

/-- What a line of a program does. -/
inductive StatementKind where
  | assign
  | initializeArray
  | bulkAssign
  | increment
  | decrement
  | output
  | ifThen
  | elseIf
  | otherwise
  | endIf
  | whileLoop
  | endWhile
  | doWhile
  | endDoWhile
  | forIncrement
  | forDecrement
  | endFor
  | defineFunction
  | endFunction
  | callFunction
  | breakLoop
  | region
  | endRegion
  deriving DecidableEq, Repr, Inhabited

namespace StatementKind

/-- Every kind. -/
def all : List StatementKind :=
  [.assign, .initializeArray, .bulkAssign, .increment, .decrement, .output, .ifThen, .elseIf,
    .otherwise, .endIf, .whileLoop, .endWhile, .doWhile, .endDoWhile, .forIncrement,
    .forDecrement, .endFor, .defineFunction, .endFunction, .callFunction, .breakLoop, .region,
    .endRegion]

theorem mem_all (kind : StatementKind) : kind ∈ all := by
  cases kind <;> decide

/-- The name of the kind in messages. -/
def label : StatementKind → String
  | .assign => "Assign"
  | .initializeArray => "InitializeArray"
  | .bulkAssign => "BulkAssignToArray"
  | .increment => "Increment"
  | .decrement => "Decrement"
  | .output => "Output"
  | .ifThen => "If"
  | .elseIf => "ElseIf"
  | .otherwise => "Else"
  | .endIf => "EndIf"
  | .whileLoop => "While"
  | .endWhile => "EndWhile"
  | .doWhile => "DoWhile"
  | .endDoWhile => "EndDoWhile"
  | .forIncrement => "ForIncrement"
  | .forDecrement => "ForDecrement"
  | .endFor => "EndFor"
  | .defineFunction => "DefineFunction"
  | .endFunction => "Defined"
  | .callFunction => "CallUserFunction"
  | .breakLoop => "Break"
  | .region => "Sub"
  | .endRegion => "EndSub"

/-- The name of the kind in saved programs: the label with a small first letter. -/
def key (kind : StatementKind) : String :=
  match kind.label.toList with
  | [] => ""
  | c :: rest => String.ofList (c.toLower :: rest)

/-- The kind that a saved program calls by the name. -/
def ofKey? (name : String) : Option StatementKind :=
  all.find? fun kind => kind.key == name

/-- Whether lines may be nested under the statement. -/
def isScoping : StatementKind → Bool
  | .ifThen | .elseIf | .otherwise | .whileLoop | .doWhile | .forIncrement | .forDecrement
  | .defineFunction | .region => true
  | _ => false

/-- Whether the statement heads a loop, which a break may leave. -/
def isLoop : StatementKind → Bool
  | .whileLoop | .doWhile | .forIncrement | .forDecrement => true
  | _ => false

/-- Whether the statement heads a counting loop. -/
def isCountingLoop : StatementKind → Bool
  | .forIncrement | .forDecrement => true
  | _ => false

/-- Whether the statement writes to the variable in its first slot. -/
def isAssignment : StatementKind → Bool
  | .assign | .initializeArray | .bulkAssign | .increment | .decrement => true
  | _ => false

/-- Whether the statement heads a block that a later neighbour closes. -/
def opensBlock : StatementKind → Bool
  | .ifThen | .whileLoop | .doWhile | .forIncrement | .forDecrement | .defineFunction
  | .region => true
  | _ => false

/-- Whether the statement goes on with a block that an earlier neighbour opened. -/
def continuesBlock : StatementKind → Bool
  | .elseIf | .otherwise => true
  | _ => false

/-- Whether the statement closes a block that an earlier neighbour opened. -/
def closesBlock : StatementKind → Bool
  | .endIf | .endWhile | .endDoWhile | .endFor | .endFunction | .endRegion => true
  | _ => false

/-- How many slots the statement has. An output has one or more and no fixed number. -/
def arity? : StatementKind → Option Nat
  | .output => none
  | .assign | .initializeArray | .bulkAssign | .increment | .decrement | .defineFunction
  | .callFunction => some 2
  | .ifThen | .elseIf | .whileLoop | .doWhile | .region => some 1
  | .forIncrement | .forDecrement => some 4
  | .otherwise | .endIf | .endWhile | .endDoWhile | .endFor | .endFunction | .breakLoop
  | .endRegion => some 0

/-- The slots that hold expressions, among the first `count`. The label of a region is no
expression. -/
def expressionSlots (kind : StatementKind) (count : Nat) : List Nat :=
  match kind with
  | .output => List.range count
  | .region => []
  | kind => (List.range (kind.arity?.getD 0)).filter (· < count)

/-- Whether the slot holds a list of expressions rather than one. -/
def isListSlot (kind : StatementKind) (slot : Nat) : Bool :=
  slot == 1 &&
    match kind with
    | .initializeArray | .defineFunction | .callFunction => true
    | _ => false

end StatementKind

end BlockCode
