import HomeTree.Query.Transform
import HomeTree.Selector.Parser
import HomeTree.Tree.Walk

namespace HomeTree

/-- A node as a query answers it, with the text read last. -/
structure MatchedNode where
  kind : String
  attributes : Dict String
  style : Dict String
  value : Option String
deriving DecidableEq

/-- The nodes a query ended on, by their paths. -/
abbrev QueryResult : Type := Dict MatchedNode

inductive Access where
  /-- Reading only. -/
  | shared
  | exclusive
deriving DecidableEq, Repr

/-- Gives a state out to a method that changes it. -/
def Access.forChange {σ : Type} (access : Access) (method : String) (s : σ) :
    Except TreeError σ :=
  match access with
  | .exclusive => .ok s
  | .shared => .error (.protocol ("'" ++ method ++ "' needs write access"))

/-- What a step leaves behind, also when it fails. -/
structure Outcome (α : Type) where
  tree : Tree
  changes : List Change
  result : Except TreeError α

/-- The nodes a query holds and the texts it has read of them, the newest first. -/
structure Cursor where
  working : List NodeId
  values : List (NodeId × Option String)

namespace Cursor

/-- Only living nodes stay, each once; a text that was read goes with its node, whose slot may be
taken by another. -/
def settle (c : Cursor) (t : Tree) : Cursor :=
  ⟨(c.working.filter t.contains).eraseDups, c.values.filter fun v => t.contains v.1⟩

def value? (c : Cursor) (id : NodeId) : Option String :=
  (c.values.lookup id).join

def collect (c : Cursor) (t : Tree) : QueryResult :=
  .ofList (c.working.filterMap fun id => (t.entry? id).map fun e =>
    (e.path.text, ⟨e.kind, e.attributes, e.style, c.value? id⟩))

end Cursor

/-- The text under a name in a node; as an attribute, `name` is the node's own name. -/
def Entry.read? (e : Entry) : Place → String → Option String
  | .attributes, name =>
    if name = nameAttribute then e.path.name? else e.attributes.get? name
  | .style, name => e.style.get? name

def Tree.read? (t : Tree) (place : Place) (name : String) (id : NodeId) : Option String := do
  (← t.entry? id).read? place name

/-- Writes a text under a name in a node. -/
def Tree.write (place : Place) (name value : String) (id : NodeId) :
    EStateM TreeError Tree Change :=
  match place with
  | .attributes => setAttribute id name value
  | .style => setStyle id name value

/-- The node above another. -/
def Tree.above (t : Tree) (id : NodeId) : Except TreeError NodeId :=
  match t.entry? id >>= Entry.parent with
  | some above => .ok above
  | none => .error (.noSuchNode "/..")

/-- Creates a sibling. -/
def Tree.insertSibling (id : NodeId) (d : Descriptor) : EStateM TreeError Tree Change := do
  let above ← (← get).above id
  insertChild above d

/-- Changes node after node; the first failure ends it. -/
def changeEach (act : NodeId → EStateM TreeError Tree (List Change)) :
    List NodeId → Tree → Outcome Unit
  | [], t => ⟨t, [], .ok ()⟩
  | id :: rest, t =>
    match act id t with
    | .error e t => ⟨t, [], .error e⟩
    | .ok changes t =>
      let o := changeEach act rest t
      ⟨o.tree, changes ++ o.changes, o.result⟩

/-- One change, as a list. -/
def single (act : EStateM TreeError Tree Change) : EStateM TreeError Tree (List Change) :=
  return [← act]

namespace Transform

/-- Goes on with another cursor. -/
def looking (t : Tree) (c : Cursor) : Outcome Cursor :=
  ⟨t, [], .ok c⟩

/-- Asks for the tree to change, and changes the nodes of the cursor. -/
def changing (access : Access) (method : String)
    (act : NodeId → EStateM TreeError Tree (List Change)) (t : Tree) (c : Cursor) :
    Outcome Cursor :=
  match access.forChange method t with
  | .error e => ⟨t, [], .error e⟩
  | .ok t =>
    let o := changeEach act c.working t
    ⟨o.tree, o.changes, o.result.map fun _ => c⟩

/-- What a transform does to a cursor and its nodes. Each asks for the access it needs. -/
def enact (access : Access) (tr : Transform) (t : Tree) (c : Cursor) : Outcome Cursor :=
  match tr with
  | .read place name =>
    looking t
      { c with values := c.working.map (fun id => (id, t.read? place name id)) ++ c.values }
  | .write place name value =>
    changing access tr.method (fun id => single (Tree.write place name value id)) t c
  | .append d => changing access tr.method (fun id => single (Tree.insertChild id d)) t c
  | .after d => changing access tr.method (fun id => single (Tree.insertSibling id d)) t c
  | .empty =>
    changing access tr.method (fun id => modifyGet fun t => (t.prune id).swap) t c
  | .parent =>
    looking t { c with working := c.working.filterMap fun id => t.entry? id >>= Entry.parent }
  | .children =>
    looking t
      { c with working := (c.working.filterMap t.entry?).flatMap fun e => e.children.values }

/-- After each transform only living nodes stay. -/
def apply (access : Access) (tr : Transform) (t : Tree) (c : Cursor) : Outcome Cursor :=
  let o := tr.enact access t c
  ⟨o.tree, o.changes, o.result.map fun c => c.settle o.tree⟩

def applyAll (access : Access) : List Transform → Tree → Cursor → Outcome Cursor
  | [], t, c => ⟨t, [], .ok c⟩
  | tr :: rest, t, c =>
    let o := tr.apply access t c
    match o.result with
    | .error e => ⟨o.tree, o.changes, .error e⟩
    | .ok c =>
      let p := applyAll access rest o.tree c
      ⟨p.tree, o.changes ++ p.changes, p.result⟩

end Transform

/-- A query that has been read. -/
structure CompiledQuery where
  selector : Selector
  transforms : List Transform
deriving DecidableEq

namespace CompiledQuery

/-- The selector is read first, then the transforms in order. -/
def compile (spec : QuerySpec) : Except TreeError CompiledQuery := do
  let selector ← Selector.parse spec.query
  let transforms ← spec.transforms.mapM Transform.ofRaw
  return ⟨selector, transforms⟩

def isMutating (q : CompiledQuery) : Bool :=
  q.transforms.any Transform.isMutating

def run (access : Access) (q : CompiledQuery) (t : Tree) : Outcome QueryResult :=
  let o := Transform.applyAll access q.transforms t ⟨t.select q.selector, []⟩
  ⟨o.tree, o.changes, o.result.map fun c => c.collect o.tree⟩

end CompiledQuery

/-- A group of queries; a member that could not be compiled keeps its error. -/
structure Plan where
  members : List (Except TreeError CompiledQuery)

/-- What a plan answers, member by member, and all it has changed. -/
structure GroupOutcome where
  tree : Tree
  results : List (Except TreeError QueryResult)
  changes : List Change

namespace Plan

def compile (specs : List QuerySpec) : Plan :=
  ⟨specs.map CompiledQuery.compile⟩

def isMutating (p : Plan) : Bool :=
  p.members.any fun m =>
    match m with
    | .ok q => q.isMutating
    | .error _ => false

def runMember (access : Access) (t : Tree) : Except TreeError CompiledQuery → Outcome QueryResult
  | .ok q => q.run access t
  | .error e => ⟨t, [], .error e⟩

def runMembers (access : Access) :
    List (Except TreeError CompiledQuery) → Tree → GroupOutcome
  | [], t => ⟨t, [], []⟩
  | m :: rest, t =>
    let o := runMember access t m
    let g := runMembers access rest o.tree
    ⟨g.tree, o.result :: g.results, o.changes ++ g.changes⟩

/-- Runs every member in order on a tree that it may change. -/
def execute (p : Plan) (t : Tree) : GroupOutcome :=
  runMembers .exclusive p.members t

/-- Runs every member in order on a tree that it may only read. -/
def executeRead (p : Plan) (t : Tree) : List (Except TreeError QueryResult) :=
  (runMembers .shared p.members t).results

end Plan

end HomeTree
