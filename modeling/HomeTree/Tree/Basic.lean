import HomeTree.Node

namespace HomeTree

/-- The number of a slot. It stands for a node only while the node lives. -/
abbrev NodeId : Type := Nat

structure Entry where
  path : Path
  kind : String
  attributes : Dict String
  style : Dict String
  children : Dict NodeId
  parent : Option NodeId
deriving DecidableEq

structure Tree where
  slots : Array (Option Entry)
  /-- Slots to take again; the last one freed is at the front. -/
  free : List NodeId
  live : Nat
deriving DecidableEq

def Entry.summary (e : Entry) : Summary :=
  ⟨e.path.name?, e.kind, e.attributes⟩

def Entry.node (e : Entry) : Node :=
  ⟨e.path.text, e.path.name?, e.kind, e.attributes, e.style,
    e.children.map fun _ => ()⟩

namespace Tree

def rootId : NodeId := 0

/-- The tree that holds the root alone. -/
def new : Tree :=
  ⟨#[some ⟨Path.root, rootKind, ∅, ∅, ∅, none⟩], [], 1⟩

instance : Inhabited Tree := ⟨new⟩

def size (t : Tree) : Nat := t.live

def isEmpty (t : Tree) : Bool := t.live == 1

def entry? (t : Tree) (id : NodeId) : Option Entry :=
  t.slots[id]?.join

def contains (t : Tree) (id : NodeId) : Bool :=
  (t.entry? id).isSome

/-- Changes the entry of a living node. -/
def update (t : Tree) (id : NodeId) (f : Entry → Entry) : Tree :=
  match t.entry? id with
  | none => t
  | some e => { t with slots := t.slots.setIfInBounds id (some (f e)) }

def child? (t : Tree) (id : NodeId) (name : String) : Option NodeId := do
  (← t.entry? id).children.get? name

def lookup? (t : Tree) (p : Path) : Option NodeId :=
  p.components.foldlM t.child? rootId

def lookup (t : Tree) (p : Path) : Except TreeError NodeId :=
  match t.lookup? p with
  | some id => .ok id
  | none => .error (.noSuchNode p.text)

/-- An id without a node has no path; it is named by its number. -/
def living (t : Tree) (id : NodeId) : Except TreeError Entry :=
  match t.entry? id with
  | some e => .ok e
  | none => .error (.noSuchNode ("<node " ++ toString id ++ ">"))

/-- The summaries met on the way up from a node, the node's own first. -/
def ascent (t : Tree) : Nat → NodeId → List Summary
  | 0, _ => []
  | steps + 1, id =>
    match t.entry? id with
    | none => []
    | some e =>
      e.summary :: match e.parent with
        | none => []
        | some parent => ascent t steps parent

/-- The summaries from the root to a node. No way up is longer than there are slots. -/
def lineage (t : Tree) (id : NodeId) : List Summary :=
  (t.ascent t.slots.size id).reverse

/-- Puts an entry into the slot freed last, or into a new one. -/
def allocate (t : Tree) (e : Entry) : Tree × NodeId :=
  match t.free with
  | slot :: free => (⟨t.slots.setIfInBounds slot (some e), free, t.live + 1⟩, slot)
  | [] => (⟨t.slots.push (some e), [], t.live + 1⟩, t.slots.size)

/-- Creates a child. Its name and kind are looked at first, then its attributes, then its
siblings. -/
def insertChild (parent : NodeId) (d : Descriptor) : EStateM TreeError Tree Change := do
  checkComponent d.name
  checkKind d.kind
  let e ← (← get).living parent
  let path := e.path.child d.name
  if d.attributes.contains nameAttribute then
    throw (.immutableAttribute path.text nameAttribute)
  else if e.children.contains d.name then
    throw (.nodeAlreadyExists path.text)
  else
    let id ← modifyGet fun t =>
      (t.allocate ⟨path, d.kind, d.attributes, ∅, ∅, some parent⟩).swap
    modify fun t => t.update parent fun e => { e with children := e.children.insert d.name id }
    return ⟨path, .created d.kind, (← get).lineage id⟩

/-- Unlinks a node without children and frees its slot. -/
def detach (t : Tree) (id : NodeId) : Tree × Change :=
  let lineage := t.lineage id
  match t.entry? id with
  | none => (t, ⟨Path.root, .removed, lineage⟩)
  | some e =>
    let t := ⟨t.slots.setIfInBounds id none, id :: t.free, t.live - 1⟩
    let t := match e.parent, e.path.name? with
      | some parent, some name =>
        t.update parent fun p => { p with children := p.children.erase name }
      | _, _ => t
    (t, ⟨e.path, .removed, lineage⟩)

/-- Removes all that is below a node, children before parents and siblings in name order. -/
def pruneBelow : Nat → Tree → NodeId → Tree × List Change
  | 0, t, _ => (t, [])
  | depth + 1, t, id =>
    match t.entry? id with
    | none => (t, [])
    | some e =>
      e.children.values.foldl
        (fun (acc : Tree × List Change) child =>
          let (t, below) := pruneBelow depth acc.1 child
          let (t, change) := t.detach child
          (t, acc.2 ++ below ++ [change]))
        (t, [])

/-- Removes every strict descendant of a node. No branch is deeper than there are slots. -/
def prune (t : Tree) (id : NodeId) : Tree × List Change :=
  pruneBelow t.slots.size t id

def setAttribute (id : NodeId) (name value : String) : EStateM TreeError Tree Change := do
  let e ← (← get).living id
  if name = nameAttribute then throw (.immutableAttribute e.path.text name)
  else
    modify fun t => t.update id fun e => { e with attributes := e.attributes.insert name value }
    return ⟨e.path, .attributeSet name value, (← get).lineage id⟩

def setStyle (id : NodeId) (name value : String) : EStateM TreeError Tree Change := do
  let e ← (← get).living id
  modify fun t => t.update id fun e => { e with style := e.style.insert name value }
  return ⟨e.path, .styleSet name value, (← get).lineage id⟩

def createChild (parent name kind : String) : EStateM TreeError Tree Change := do
  let path ← Path.parse parent
  checkComponent name
  checkKind kind
  let id ← (← get).lookup path
  insertChild id (.plain kind name)

/-- The child under a name of the node at a path. -/
def child (t : Tree) (id : NodeId) (path : Path) (name : String) : Except TreeError NodeId :=
  match t.child? id name with
  | some child => .ok child
  | none => .error (.noSuchNode (path.child name).text)

/-- Removes a node that has no children. -/
def removeChild (parent name : String) : EStateM TreeError Tree Change := do
  let path ← Path.parse parent
  checkComponent name
  let id ← (← get).lookup path
  let child ← (← get).child id path name
  let e ← (← get).living child
  if e.children.isEmpty then modifyGet fun t => (t.detach child).swap
  else throw (.nodeContainsChildren e.path.text)

def listChildren (t : Tree) (path : String) : Except TreeError NameSet := do
  let id ← t.lookup (← Path.parse path)
  return (← t.living id).node.children

def getNode (t : Tree) (path : String) : Except TreeError Node := do
  let id ← t.lookup (← Path.parse path)
  return (← t.living id).node

end Tree

end HomeTree
