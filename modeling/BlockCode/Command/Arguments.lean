/- # Arguments of the command

The command takes one file and a few options. Options may come before or behind the file, in
a long form or as single letters, which can be put together behind one dash. A value stands
behind its option or is attached to it. No option may be given twice, and behind a double dash
everything is a file.
-/

import BlockCode.Number.Written
import BlockCode.Target.Basic

namespace BlockCode

/-- Options that stand alone. -/
inductive Flag where
  | everyTarget
  | check
  | flatten
  | verbose
  | help
  | version
  deriving DecidableEq, Repr, Inhabited

/-- Options that take a value. -/
inductive Setting where
  | target
  | output
  | indent
  | entryPoint
  deriving DecidableEq, Repr, Inhabited

/-- An option of either sort. -/
inductive OptionName where
  | flag (flag : Flag)
  | setting (setting : Setting)
  deriving DecidableEq, Repr, Inhabited

namespace OptionName

/-- The options by their long names. -/
def longNames : List (String × OptionName) :=
  [("target", .setting .target), ("all", .flag .everyTarget), ("output", .setting .output),
    ("check", .flag .check), ("flatten", .flag .flatten), ("indent", .setting .indent),
    ("entry-point", .setting .entryPoint), ("verbose", .flag .verbose), ("help", .flag .help),
    ("version", .flag .version)]

/-- The options that have a letter. -/
def letters : List (Char × OptionName) :=
  [('t', .setting .target), ('o', .setting .output), ('v', .flag .verbose), ('h', .flag .help),
    ('V', .flag .version)]

end OptionName

/-- What an argument, or an argument with the value behind it, says. -/
inductive ArgumentItem where
  | file (path : String)
  | flag (flag : Flag)
  | setting (setting : Setting) (value : String)
  | malformed
  deriving DecidableEq, Repr, Inhabited

/-- Whether an argument cannot be the value of an option before it. A single dash can. -/
def looksLikeOption (argument : String) : Bool :=
  argument.toList.head? == some '-' && argument != "-"

/-- What letters behind one dash say, and the option that still needs its value, if the last
letter is such an option. -/
def letterItems : List Char → List ArgumentItem × Option Setting
  | [] => ([], none)
  | c :: rest =>
    match OptionName.letters.lookup c with
    | none => ([.malformed], none)
    | some (.flag flag) =>
      let (items, pending?) := letterItems rest
      (.flag flag :: items, pending?)
    | some (.setting setting) =>
      match rest with
      | [] => ([], some setting)
      | '=' :: value | value => ([.setting setting (String.ofList value)], none)

/-- What a long option says, and the option if it still needs its value. -/
def longItems (text : List Char) : List ArgumentItem × Option Setting :=
  let name := text.takeWhile (· != '=')
  let value? := (text.drop name.length).tail?.map String.ofList
  match OptionName.longNames.lookup (String.ofList name), value? with
  | some (.flag flag), none => ([.flag flag], none)
  | some (.setting setting), some value => ([.setting setting value], none)
  | some (.setting setting), none => ([], some setting)
  | _, _ => ([.malformed], none)

/-- What one argument says, and the option that takes the next argument as its value. -/
def argumentItems (argument : String) : List ArgumentItem × Option Setting :=
  match argument.toList with
  | '-' :: '-' :: text => longItems text
  | '-' :: c :: rest => letterItems (c :: rest)
  | _ => ([.file argument], none)

/-- What all arguments say, where `pending?` is an option that waits for its value. -/
def itemsFrom (pending? : Option Setting) : List String → List ArgumentItem
  | [] => if pending?.isSome then [.malformed] else []
  | argument :: rest =>
    match pending? with
    | some setting =>
      if looksLikeOption argument then [.malformed]
      else .setting setting argument :: itemsFrom none rest
    | none =>
      if argument == "--" then rest.map .file
      else
        let (items, pending?) := argumentItems argument
        items ++ itemsFrom pending? rest

/-- The arguments as far as they have been given. -/
structure ArgumentDraft where
  file? : Option String := none
  target? : Option Target := none
  output? : Option String := none
  indent? : Option Nat := none
  entryPoint? : Option String := none
  flags : List Flag := []
  deriving DecidableEq, Repr, Inhabited

/-- The arguments of a rendering. -/
structure Arguments where
  file : String
  /-- The targets to render to; nothing stands for all of them. -/
  target? : Option Target
  output? : Option String
  check : Bool
  flatten : Bool
  options : RenderOptions
  deriving DecidableEq, Repr, Inhabited

/-- What the command is asked to do. -/
inductive Request where
  | help
  | version
  | render (arguments : Arguments)
  deriving DecidableEq, Repr, Inhabited

namespace ArgumentDraft

/-- The path, if it is one. The empty text is none. -/
def path? (text : String) : Option String :=
  if text.isEmpty then none else some text

/-- The draft with the value of an option, if it is a value for it and the first one. -/
def set? (draft : ArgumentDraft) (setting : Setting) (value : String) : Option ArgumentDraft :=
  match setting with
  | .target =>
    if draft.target?.isSome then none
    else (Target.ofWord? value).map fun target => { draft with target? := some target }
  | .output =>
    if draft.output?.isSome then none
    else (path? value).map fun path => { draft with output? := some path }
  | .indent =>
    if draft.indent?.isSome then none
    else (readCount? value).map fun width => { draft with indent? := some width }
  | .entryPoint =>
    if draft.entryPoint?.isSome then none else some { draft with entryPoint? := some value }

/-- The arguments, if there is a file and no option contradicts another. -/
def complete? (draft : ArgumentDraft) : Option Arguments := do
  let file ← draft.file?
  let everyTarget := draft.flags.contains .everyTarget
  if everyTarget && draft.target?.isSome then none
  let defaults : RenderOptions := {}
  return {
    file
    target? := if everyTarget then none else some (draft.target?.getD .javaScript)
    output? := draft.output?
    check := draft.flags.contains .check
    flatten := draft.flags.contains .flatten
    options :=
      { indentWidth := draft.indent?.getD defaults.indentWidth
        entryPoint := draft.entryPoint?.getD defaults.entryPoint } }

/-- What the items ask for on top of the draft. -/
def request? (draft : ArgumentDraft) : List ArgumentItem → Option Request
  | [] => draft.complete?.map .render
  | .malformed :: _ => none
  | .flag .help :: _ => some .help
  | .flag .version :: _ => some .version
  | .flag flag :: rest =>
    if draft.flags.contains flag then none
    else request? { draft with flags := flag :: draft.flags } rest
  | .file path :: rest =>
    if draft.file?.isSome then none
    else do
      let path ← path? path
      request? { draft with file? := some path } rest
  | .setting setting value :: rest => do
    let draft ← draft.set? setting value
    request? draft rest

end ArgumentDraft

/-- What the arguments of the command ask for, if they are in order. -/
def Request.ofArguments? (arguments : List String) : Option Request :=
  ArgumentDraft.request? {} (itemsFrom none arguments)

end BlockCode
