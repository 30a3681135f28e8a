/- # Structural rules

The rules on the form of a program. A block line constrains its neighbours in the same list:
a header must be followed by a line that goes on with its block or closes it, and such a line
must come directly after one that it belongs to. Only headers and continuations own lines, a
break needs a loop around it, functions are defined once and at the top, and a call fits its
definition.
-/

import BlockCode.Check.Function
import BlockCode.Check.Line

namespace BlockCode

namespace Line

/-- An identifier must not have occurred before. -/
def idFaults (line : Line) : List Fault :=
  match line.before.position? line.item.id with
  | some first => [.duplicateId line.item.id (first + 1)]
  | none => []

/-- A line that leaves its block open must be followed by one that belongs to the block. -/
def successorFaults (line : Line) : List Fault :=
  match line.kind.successors? with
  | some kinds =>
    if line.nextSibling?.any fun next => kinds.contains next.statement.kind then []
    else [.missingSuccessor line.kind]
  | none => []

/-- A line that goes on with a block or closes it must come after one of the block. -/
def predecessorFaults (line : Line) : List Fault :=
  match line.kind.predecessors? with
  | some kinds =>
    if line.previousSibling?.any fun previous => kinds.contains previous.statement.kind then []
    else [.missingPredecessor line.kind]
  | none => []

/-- Only headers and continuations of blocks own lines. -/
def bodyFaults (line : Line) : List Fault :=
  if !line.kind.isScoping && line.hasBody then [.childrenNotAllowed] else []

/-- A statement has the slots of its kind. An output has at least one. -/
def slotCountFaults (line : Line) : List Fault :=
  let found := line.statement.slots.length
  match line.kind.arity? with
  | some expected => if found = expected then [] else [.slotCount line.kind expected found]
  | none => if found = 0 then [.slotCount line.kind 1 0] else []

/-- A break leaves a loop. -/
def breakFaults (line : Line) : List Fault :=
  if line.ancestors.any fun item => item.statement.kind.isLoop then [] else [.breakOutsideLoop]

/-- A function is defined at the top, and no function before it has its name. -/
def definitionFaults (line : Line) : List Fault :=
  let name := trim (line.statement.slot 0)
  (if line.item.depth > 0 then [.nestedFunction name] else [])
    ++ match line.before.findIdx? fun other =>
        other.statement.definition?.any fun f => f.name == name with
      | some first => [.duplicateFunction name (first + 1)]
      | none => []

/-- A call with a number of arguments names a function that takes as many. -/
def callFaults (functions : List FunctionSignature) (name : String) (found : Nat) : List Fault :=
  match findFunction? functions name with
  | none => [.undefinedFunction name]
  | some f => if f.parameters = found then [] else [.argumentCount name f.parameters found]

/-- The rules that only some kinds have. -/
def kindFaults (functions : List FunctionSignature) (line : Line) : List Fault :=
  match line.kind with
  | .breakLoop => line.breakFaults
  | .defineFunction => line.definitionFaults
  | .callFunction =>
    callFaults functions (trim (line.statement.slot 0)) (listLength (line.statement.slot 1))
  | _ => []

/-- All structural faults of a line, always in the same order. -/
def structureFaults (functions : List FunctionSignature) (line : Line) : List Fault :=
  line.successorFaults ++ line.predecessorFaults ++ line.bodyFaults ++ line.slotCountFaults
    ++ line.kindFaults functions

end Line

end BlockCode
