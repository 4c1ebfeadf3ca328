namespace HomeTree

inductive Argument where
  | option (name value : String)
  | flag (name : String)
  | positional (word : String)
deriving DecidableEq, Repr

namespace Argument

/-- The options that a command knows: those with a value and those without. -/
structure Known where
  valued : List String
  flags : List String

/-- What the words read so far leave to be read. -/
inductive Expecting where
  | word
  /-- The value of an option. -/
  | value (name : String)
  /-- Positional words only. -/
  | trailing
deriving DecidableEq, Repr

def isOption (word : String) : Bool :=
  match word.toList with
  | '-' :: _ :: _ => true
  | _ => false

/-- A short flag stands for a long one by its letter. -/
def shortFlag? : Char → Option String
  | 'v' => some "verbose"
  | _ => none

/-- A long option, with its value behind an equals sign, or with the value still to come. -/
def long? (known : Known) (body : List Char) : Option (List Argument × Expecting) :=
  let name := String.ofList (body.takeWhile (· ≠ '='))
  match body.dropWhile (· ≠ '=') with
  | [] =>
    if known.flags.contains name then some ([.flag name], .word)
    else if known.valued.contains name then some ([], .value name)
    else none
  | _ :: value =>
    if known.valued.contains name then some ([.option name (String.ofList value)], .word)
    else none

/-- One word where none is awaited as a value. -/
def word? (known : Known) (word : String) : Option (List Argument × Expecting) :=
  match word.toList with
  | ['-', '-'] => some ([], .trailing)
  | '-' :: '-' :: body => long? known body
  | '-' :: c :: letters => do
    let flags ← (c :: letters).mapM shortFlag?
    some (flags.map .flag, .word)
  | _ => some ([.positional word], .word)

/-- All words of a command. -/
def sort? (known : Known) : Expecting → List String → Option (List Argument)
  | .value _, [] => none
  | _, [] => some []
  | .trailing, w :: rest => (sort? known .trailing rest).map (.positional w :: ·)
  | .value name, w :: rest =>
    if isOption w then none else (sort? known .word rest).map (.option name w :: ·)
  | .word, w :: rest => do
    let (arguments, next) ← word? known w
    let others ← sort? known next rest
    some (arguments ++ others)

/-- The words before a command, the command and the words behind it. -/
def upToCommand? (known : Known) : Expecting → List String →
    Option (List Argument × String × List String)
  | _, [] => none
  | .trailing, _ :: _ => none
  | .value name, w :: rest =>
    if isOption w then none
    else do
      let (before, command, behind) ← upToCommand? known .word rest
      some (.option name w :: before, command, behind)
  | .word, w :: rest => do
    let (arguments, next) ← word? known w
    if arguments = [.positional w] then some ([], w, rest)
    else
      let (before, command, behind) ← upToCommand? known next rest
      some (arguments ++ before, command, behind)

def positionals (arguments : List Argument) : List String :=
  arguments.filterMap fun a =>
    match a with
    | .positional w => some w
    | _ => none

def values (name : String) (arguments : List Argument) : List String :=
  arguments.filterMap fun a =>
    match a with
    | .option n v => if n = name then some v else none
    | _ => none

def hasFlag (name : String) (arguments : List Argument) : Bool :=
  arguments.contains (.flag name)

/-- Whether no option is given twice, but those that may be. -/
def givenOnce (repeatable : List String) (arguments : List Argument) : Bool :=
  let names := arguments.filterMap fun a =>
    match a with
    | .option n _ => if repeatable.contains n then none else some n
    | .flag n => some n
    | .positional _ => none
  decide names.Nodup

end Argument

end HomeTree
