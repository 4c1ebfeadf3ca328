import HomeTree.Path.Pattern
import HomeTree.Selector.Matching
import HomeTree.Selector.Parser

namespace HomeTree

inductive Target where
  | path (pattern : Pattern)
  | selector (selector : Selector)
deriving DecidableEq, Repr

namespace Target

/-- A text that begins with a slash is a pattern, any other a selector. -/
def parse (s : String) : Except TreeError Target :=
  if s.toList.head? = some '/' then (Pattern.parse s).map .path
  else (Selector.parse s).map .selector

def text : Target → String
  | .path p => p.text
  | .selector s => s.text

/-- A pattern accepts a change of the node at its path, and of the attribute at its address; a
selector goes by the lineage that the change carries. -/
def accepts (t : Target) (c : Change) : Bool :=
  match t with
  | .selector s => s.accepts c.lineage
  | .path p =>
    p.accepts c.path ||
      match c.event with
      | .attributeSet name _ => p.acceptsAttribute c.path name
      | _ => false

end Target

end HomeTree
