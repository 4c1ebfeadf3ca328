import HomeTree.Node

namespace HomeTree

/-- `[name]` asks for an attribute, `[name=value]` for its value too. -/
structure Filter where
  name : String
  value : Option String
deriving DecidableEq, Repr

/-- A kind, or any, with filters that must all hold. -/
structure Step where
  kind : Option String
  filters : List Filter
deriving DecidableEq, Repr

/-- Steps from the outermost node to the innermost. -/
structure Chain where
  steps : List Step
deriving DecidableEq, Repr

structure Selector where
  chains : List Chain
deriving DecidableEq, Repr

/-- Quotes and backslashes behind a backslash. -/
def escapedChars (cs : List Char) : List Char :=
  cs.flatMap fun c => if c = '\\' ∨ c = '"' then ['\\', c] else [c]

def Filter.chars (f : Filter) : List Char :=
  match f.value with
  | none => '[' :: f.name.toList ++ [']']
  | some v => '[' :: f.name.toList ++ '=' :: '"' :: escapedChars v.toList ++ ['"', ']']

/-- A star stands for any kind where no filter follows. -/
def Step.chars (s : Step) : List Char :=
  let kind := match s.kind with
    | some k => k.toList
    | none => if s.filters.isEmpty then ['*'] else []
  kind ++ s.filters.flatMap Filter.chars

/-- Texts with a separator between them. -/
def joined (separator : List Char) : List (List Char) → List Char
  | [] => []
  | [cs] => cs
  | cs :: rest => cs ++ separator ++ joined separator rest

def Chain.chars (c : Chain) : List Char :=
  joined [' ', '>', ' '] (c.steps.map Step.chars)

def Selector.chars (s : Selector) : List Char :=
  joined [',', ' '] (s.chains.map Chain.chars)

def Selector.text (s : Selector) : String :=
  String.ofList s.chars

/-- The selector text for the one node at a path: from the root down, each component by name. -/
def Path.selectorText (p : Path) : String :=
  String.ofList (rootKind.toList ++ p.components.flatMap fun c =>
    [' ', '>', ' '] ++ Filter.chars ⟨nameAttribute, some c⟩)

end HomeTree
