import HomeTree.Command.Arguments
import HomeTree.Settings.Basic

namespace HomeTree

/-- A command for a client. -/
inductive ClientCommand where
  | stop
  | ls (path : String)
  | mk (parent name : String) (kind : Option String)
  | rm (parent name : String)
  | get (path : String)
  /-- Attributes and style properties are pairs with an equals sign to write, names to read. -/
  | query (selector : String) (attrs css : List String) (parent children empty : Bool)
  | watch (target : String)
deriving DecidableEq, Repr

inductive Command where
  | serve
  | client (command : ClientCommand)
deriving DecidableEq, Repr

structure Invocation where
  configDir : Option String
  endpoint : Option String
  verbose : Bool
  command : Command
deriving DecidableEq, Repr

namespace Command

/-- The options of every command. -/
def shared : Argument.Known :=
  ⟨["config-dir", "endpoint"], ["verbose"]⟩

def known (command : String) : Option Argument.Known :=
  if command = "mk" then some ⟨"kind" :: shared.valued, shared.flags⟩
  else if command = "query" then
    some ⟨"attr" :: "css" :: shared.valued, "parent" :: "children" :: "empty" :: shared.flags⟩
  else if ["serve", "stop", "ls", "rm", "get", "watch"].contains command then some shared
  else none

/-- The command with its positional words, which have to be as many as it takes. -/
def ofArguments? (command : String) (arguments : List Argument) : Option Command :=
  match command, Argument.positionals arguments with
  | "serve", [] => some .serve
  | "stop", [] => some (.client .stop)
  | "ls", [path] => some (.client (.ls path))
  | "mk", [parent, name] =>
    some (.client (.mk parent name (Argument.values "kind" arguments).head?))
  | "rm", [parent, name] => some (.client (.rm parent name))
  | "get", [path] => some (.client (.get path))
  | "query", [selector] =>
    some (.client (.query selector
      (Argument.values "attr" arguments) (Argument.values "css" arguments)
      (Argument.hasFlag "parent" arguments) (Argument.hasFlag "children" arguments)
      (Argument.hasFlag "empty" arguments)))
  | "watch", [target] => some (.client (.watch target))
  | _, _ => none

end Command

namespace Invocation

/-- An option of every command, from behind the command or else from before it. -/
def shared (name : String) (before behind : List Argument) : Option String :=
  (Argument.values name behind).head? <|> (Argument.values name before).head?

/-- The invocation that words stand for. A configuration directory needs a name. -/
def parse? (words : List String) : Option Invocation := do
  let (before, command, rest) ← Argument.upToCommand? Command.shared .word words
  let behind ← Argument.sort? (← Command.known command) .word rest
  let configDirs := Argument.values "config-dir" (before ++ behind)
  if Argument.givenOnce [] before ∧ Argument.givenOnce ["attr", "css"] behind
      ∧ configDirs.contains "" = false then
    let c ← Command.ofArguments? command behind
    some ⟨shared "config-dir" before behind, shared "endpoint" before behind,
      Argument.hasFlag "verbose" (before ++ behind), c⟩
  else none

end Invocation

end HomeTree
