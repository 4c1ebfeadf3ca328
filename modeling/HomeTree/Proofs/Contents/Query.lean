import HomeTree.Proofs.Contents.Edits
import HomeTree.Proofs.Contents.Prune
import HomeTree.Query.Plan

namespace HomeTree

/-- The paths a query holds and the texts it has read at them, the newest first. -/
structure PathCursor where
  working : List Path
  values : List (Path × Option String)

/-- What a step on contents leaves behind, also when it fails. -/
structure PathOutcome (α : Type) where
  contents : Contents
  changes : List Change
  result : Except TreeError α

namespace Contents

def select (m : Contents) (s : Selector) : List Path :=
  m.paths.filter fun p => s.accepts (m.lineage p)

/-- Only paths that are there stay, each once. -/
def settle (m : Contents) (c : PathCursor) : PathCursor :=
  ⟨(c.working.filter fun p => p ∈ m).eraseDups, c.values.filter fun v => v.1 ∈ m⟩

def collect (m : Contents) (c : PathCursor) : QueryResult :=
  .ofList (c.working.filterMap fun p => (m.lookup p).map fun content =>
    (p.text, ⟨content.kind, content.attributes, content.style, (c.values.lookup p).join⟩))

def read? (m : Contents) (place : Place) (name : String) (p : Path) : Option String := do
  let content ← m.lookup p
  match place with
  | .attributes => Facet.read? (⟨p.name?, content.kind, content.attributes⟩ : Summary) name
  | .style => content.style.get? name

def write (place : Place) (name value : String) (m : Contents) (p : Path) :
    Except TreeError (Contents × Change) :=
  match place with
  | .attributes => m.setAttribute p name value
  | .style => m.setStyle p name value

def insertSibling (m : Contents) (p : Path) (d : Descriptor) :
    Except TreeError (Contents × Change) :=
  match p.parent? with
  | none => .error (.noSuchNode "/..")
  | some above => m.insertChild above d

/-- Changes path after path; the first failure ends it. -/
def changeEach (act : Contents → Path → Except TreeError (Contents × List Change)) :
    List Path → Contents → PathOutcome Unit
  | [], m => ⟨m, [], .ok ()⟩
  | p :: rest, m =>
    match act m p with
    | .error e => ⟨m, [], .error e⟩
    | .ok (m, changes) =>
      let o := changeEach act rest m
      ⟨o.contents, changes ++ o.changes, o.result⟩

def single (r : Except TreeError (Contents × Change)) :
    Except TreeError (Contents × List Change) :=
  r.map fun (m, change) => (m, [change])

def looking (m : Contents) (c : PathCursor) : PathOutcome PathCursor :=
  ⟨m, [], .ok c⟩

def changing (access : Access) (method : String)
    (act : Contents → Path → Except TreeError (Contents × List Change)) (m : Contents)
    (c : PathCursor) : PathOutcome PathCursor :=
  match access.forChange method m with
  | .error e => ⟨m, [], .error e⟩
  | .ok m =>
    let o := changeEach act c.working m
    ⟨o.contents, o.changes, o.result.map fun _ => c⟩

/-- What a transform does to a cursor and what is at its paths. -/
def enact (access : Access) (tr : Transform) (m : Contents) (c : PathCursor) :
    PathOutcome PathCursor :=
  match tr with
  | .read place name =>
    m.looking { c with values := c.working.map (fun p => (p, m.read? place name p)) ++ c.values }
  | .write place name value =>
    m.changing access tr.method (fun m p => single (m.write place name value p)) c
  | .append d => m.changing access tr.method (fun m p => single (m.insertChild p d)) c
  | .after d => m.changing access tr.method (fun m p => single (m.insertSibling p d)) c
  | .empty => m.changing access tr.method (fun m p => .ok (m.prune p)) c
  | .parent => m.looking { c with working := c.working.filterMap Path.parent? }
  | .children => m.looking { c with working := c.working.flatMap m.children }

def apply (access : Access) (tr : Transform) (m : Contents) (c : PathCursor) :
    PathOutcome PathCursor :=
  let o := m.enact access tr c
  ⟨o.contents, o.changes, o.result.map o.contents.settle⟩

def applyAll (access : Access) : List Transform → Contents → PathCursor → PathOutcome PathCursor
  | [], m, c => ⟨m, [], .ok c⟩
  | tr :: rest, m, c =>
    let o := apply access tr m c
    match o.result with
    | .error e => ⟨o.contents, o.changes, .error e⟩
    | .ok c =>
      let p := applyAll access rest o.contents c
      ⟨p.contents, o.changes ++ p.changes, p.result⟩

def runMember (access : Access) (m : Contents) :
    Except TreeError CompiledQuery → PathOutcome QueryResult
  | .ok q =>
    let o := applyAll access q.transforms m ⟨m.select q.selector, []⟩
    ⟨o.contents, o.changes, o.result.map fun c => o.contents.collect c⟩
  | .error e => ⟨m, [], .error e⟩

/-- Members one after the other: the contents behind them, the results and the changes. -/
def runMembers (access : Access) : List (Except TreeError CompiledQuery) → Contents →
    Contents × List (Except TreeError QueryResult) × List Change
  | [], m => (m, [], [])
  | member :: rest, m =>
    let o := runMember access m member
    let (n, results, changes) := runMembers access rest o.contents
    (n, o.result :: results, o.changes ++ changes)

end Contents

end HomeTree
