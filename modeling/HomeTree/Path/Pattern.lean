import HomeTree.Path.Basic

namespace HomeTree

inductive Segment where
  | literal (name : String)
  | wildcard
deriving DecidableEq, Repr

namespace Segment

def ofComponent (component : String) : Segment :=
  if component = "*" then .wildcard else .literal component

def text : Segment → String
  | .literal name => name
  | .wildcard => "*"

def accepts : Segment → String → Bool
  | .literal name, other => name == other
  | .wildcard, _ => true

end Segment

structure Pattern where
  segments : List Segment
deriving DecidableEq, Repr

namespace Pattern

def parse (s : String) : Except TreeError Pattern := do
  let path ← Path.parse s
  return ⟨path.components.map Segment.ofComponent⟩

def text (p : Pattern) : String :=
  Path.text ⟨p.segments.map Segment.text⟩

def hasWildcard (p : Pattern) : Bool :=
  p.segments.contains .wildcard

/-- Segments and names one to one. -/
def acceptsAll : List Segment → List String → Bool
  | [], [] => true
  | s :: ss, n :: ns => s.accepts n && acceptsAll ss ns
  | _, _ => false

def accepts (p : Pattern) (path : Path) : Bool :=
  acceptsAll p.segments path.components

/-- The address of an attribute is the path of its node and its name behind it. -/
def acceptsAttribute (p : Pattern) (path : Path) (name : String) : Bool :=
  match p.segments.getLast? with
  | none => false
  | some last => last.accepts name && acceptsAll p.segments.dropLast path.components

end Pattern

end HomeTree
