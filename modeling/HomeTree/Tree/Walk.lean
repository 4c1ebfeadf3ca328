import HomeTree.Tree.Basic
import HomeTree.Selector.Matching

namespace HomeTree

/-- A node in the tree shows to a selector what a summary of it shows. -/
instance : Facet Entry where
  name e := e.path.name?
  kind := Entry.kind
  attribute? e := e.attributes.get?

/-- A node met on a walk, with the nodes from the root to it. -/
structure Visit where
  id : NodeId
  entry : Entry
  lineage : List Entry

namespace Tree

/-- The nodes from one down, where `above` leads to its parent: each node before its children, and
siblings in name order. -/
def visitsBelow (t : Tree) : Nat → List Entry → NodeId → List Visit
  | 0, _, _ => []
  | depth + 1, above, id =>
    match t.entry? id with
    | none => []
    | some e =>
      let lineage := above ++ [e]
      ⟨id, e, lineage⟩ :: e.children.values.flatMap (visitsBelow t depth lineage)

/-- All nodes of the tree in walk order. -/
def visits (t : Tree) : List Visit :=
  t.visitsBelow t.slots.size [] rootId

def nodes (t : Tree) : List Node :=
  t.visits.map fun v => v.entry.node

/-- The nodes that a selector matches, in walk order. -/
def select (t : Tree) (s : Selector) : List NodeId :=
  (t.visits.filter fun v => s.accepts v.lineage).map (·.id)

end Tree

end HomeTree
