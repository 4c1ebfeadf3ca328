import HomeTree.Proofs.Contents.Edits
import HomeTree.Proofs.Tree.Reachable

namespace HomeTree

namespace Contents

/-- A new child without attributes. The path of the parent is read first, and whether it is there
is asked after the name and the kind were looked at. -/
def createChild (m : Contents) (parent name kind : String) :
    Except TreeError (Contents × Change) := do
  let p ← Path.parse parent
  checkComponent name
  checkKind kind
  if p ∉ m then .error (.noSuchNode p.text)
  else if p.child name ∈ m then .error (.nodeAlreadyExists (p.child name).text)
  else
    let n : Contents := m.insert (p.child name) ⟨kind, ∅, ∅⟩
    .ok (n, ⟨p.child name, .created kind, n.lineage (p.child name)⟩)

theorem createChild_eq_insertChild (m : Contents) (parent name kind : String) :
    m.createChild parent name kind =
      Path.parse parent >>= fun p => m.insertChild p (.plain kind name) := by
  rfl

/-- A child that nothing lies below is removed. The parent is looked for before the child. -/
def removeChild (m : Contents) (parent name : String) : Except TreeError (Contents × Change) := do
  let p ← Path.parse parent
  checkComponent name
  if p ∉ m then .error (.noSuchNode p.text)
  else if p.child name ∉ m then .error (.noSuchNode (p.child name).text)
  else if m.Childless (p.child name) then
    .ok (m.erase (p.child name), ⟨p.child name, .removed, m.lineage (p.child name)⟩)
  else .error (.nodeContainsChildren (p.child name).text)

/-- The names that lead one step down from a path. -/
def names (m : Contents) (p : Path) : NameSet :=
  .ofList ((m.children p).filterMap Path.name?)

def getNode (m : Contents) (path : String) : Except TreeError Node := do
  let p ← Path.parse path
  match m.lookup p with
  | none => .error (.noSuchNode p.text)
  | some c => .ok ⟨p.text, p.name?, c.kind, c.attributes, c.style, m.names p⟩

def listChildren (m : Contents) (path : String) : Except TreeError NameSet := do
  let p ← Path.parse path
  if p ∈ m then .ok (m.names p) else .error (.noSuchNode p.text)

theorem get?_names {m : Contents} {p : Path} {name : String} :
    (m.names p).get? name = if p.child name ∈ m then some () else none := by
  have hmem : name ∈ (m.children p).filterMap Path.name? ↔ p.child name ∈ m := by
    rw [List.mem_filterMap]
    constructor
    · rintro ⟨q, hq, hname⟩
      obtain ⟨hqm, other, rfl⟩ := mem_children.mp hq
      cases Option.some.inj ((Path.name?_child p other).symm.trans hname)
      exact hqm
    · intro h
      exact ⟨p.child name, mem_children.mpr ⟨h, name, rfl⟩, Path.name?_child p name⟩
  rw [names, NameSet.get?_ofList]
  simp only [hmem]

end Contents

inductive StoreCall where
  | create (parent name kind : String)
  | remove (parent name : String)
  | get (path : String)
  | list (path : String)

inductive StoreAnswer where
  | change (r : Except TreeError Change)
  | node (r : Except TreeError Node)
  | names (r : Except TreeError NameSet)

/-- The state behind an attempt, and the answer to it. -/
def answerEdit {σ : Type} : EStateM.Result TreeError σ Change → σ × StoreAnswer
  | .ok c s => (s, .change (.ok c))
  | .error e s => (s, .change (.error e))

def Tree.answer (t : Tree) : StoreCall → Tree × StoreAnswer
  | .create parent name kind => answerEdit (t.createChild parent name kind)
  | .remove parent name => answerEdit (t.removeChild parent name)
  | .get path => (t, .node (t.getNode path))
  | .list path => (t, .names (t.listChildren path))

/-- Where the contents refuse an edit they are left as they were. -/
def Contents.answer (m : Contents) : StoreCall → Contents × StoreAnswer
  | .create parent name kind => answerEdit (allOrNothing m (m.createChild parent name kind))
  | .remove parent name => answerEdit (allOrNothing m (m.removeChild parent name))
  | .get path => (m, .node (m.getNode path))
  | .list path => (m, .names (m.listChildren path))

/-- Calls one after the other, with the answers to them. -/
def answerAll {σ : Type} (answer : σ → StoreCall → σ × StoreAnswer) :
    List StoreCall → σ → σ × List StoreAnswer
  | [], s => (s, [])
  | call :: rest, s =>
    let r := answer s call
    let later := answerAll answer rest r.1
    (later.1, r.2 :: later.2)

namespace Tree

namespace Sound

variable {t : Tree} {id : NodeId} {e : Entry} {p : Path}

theorem lookup_of_not_mem (ht : t.Sound) (hp : p ∉ t.contents) :
    t.lookup p = .error (.noSuchNode p.text) := by
  cases h : t.lookup? p with
  | none => rw [lookup, h]
  | some id => exact absurd (ht.mem_contents_iff.mpr ⟨id, ht.lookup?_eq_some_iff.mp h⟩) hp

theorem exists_lookup (ht : t.Sound) (hp : p ∈ t.contents) :
    ∃ id e, t.lookup p = .ok id ∧ t.entry? id = some e ∧ e.path = p := by
  obtain ⟨id, e, he, hpath⟩ := ht.mem_contents_iff.mp hp
  refine ⟨id, e, ?_, he, hpath⟩
  rw [lookup, ht.lookup?_eq_some_iff.mpr ⟨e, he, hpath⟩]

theorem createChild_eq (ht : t.Sound) (parent name kind : String) :
    onContents (t.createChild parent name kind) =
      allOrNothing t.contents (t.contents.createChild parent name kind) := by
  refine onContents_lift_bind fun p _ => ?_
  refine onContents_lift_bind fun _ hname => onContents_lift_bind fun _ hkind => ?_
  by_cases hp : p ∈ t.contents
  · obtain ⟨id, e, hid, he, rfl⟩ := ht.exists_lookup hp
    have direct := ht.insertChild_eq he (.plain kind name)
    -- What has passed the checks once passes them again.
    simp only [Contents.insertChild, Descriptor.plain, hname, hkind] at direct
    exact (congrArg onContents (lift_bind_ok hid)).trans direct
  · rw [if_pos hp]
    exact congrArg onContents (lift_bind_error (ht.lookup_of_not_mem hp))

/-- The last step of a removal: whether anything is below the node decides between two answers. -/
theorem onContents_detach_of_childless (ht : t.Sound) (he : t.entry? id = some e)
    (hr : id ≠ rootId) :
    onContents ((if e.children.isEmpty then modifyGet fun t => (t.detach id).swap
      else throw (.nodeContainsChildren e.path.text) : EStateM TreeError Tree Change) t) =
      allOrNothing t.contents (
        if t.contents.Childless e.path then
          .ok (t.contents.erase e.path, ⟨e.path, .removed, t.contents.lineage e.path⟩)
        else .error (.nodeContainsChildren e.path.text)) := by
  have hchildless := ht.childless_contents_iff he
  by_cases hempty : e.children.isEmpty = true
  · rw [if_pos hempty, if_pos (hchildless.mpr hempty), ← ht.change_detach he,
      ← ht.contents_detach he hr (ht.detach he hr hempty)]
    rfl
  · rw [if_neg hempty, if_neg fun none => hempty (hchildless.mp none)]
    rfl

theorem removeChild_eq (ht : t.Sound) (parent name : String) :
    onContents (t.removeChild parent name) =
      allOrNothing t.contents (t.contents.removeChild parent name) := by
  refine onContents_lift_bind fun p _ => onContents_lift_bind fun _ _ => ?_
  by_cases hp : p ∈ t.contents
  · obtain ⟨id, e, hid, he, rfl⟩ := ht.exists_lookup hp
    have hchild : t.child? id name = e.children.get? name := by simp [child?, he]
    rw [if_neg (not_not.mpr hp)]
    refine (congrArg onContents (lift_bind_ok hid)).trans ?_
    cases hc : e.children.get? name with
    | none =>
      have habsent : e.path.child name ∉ t.contents := by
        rw [ht.child_mem_contents_iff he, hc]
        simp
      have missing : t.child id e.path name = .error (.noSuchNode (e.path.child name).text) := by
        rw [Tree.child, hchild, hc]
      rw [if_pos habsent]
      exact congrArg onContents (lift_bind_error missing)
    | some c =>
      obtain ⟨f, hf, _, hpath⟩ := ht.child he hc
      have found : t.child id e.path name = .ok c := child_eq_ok_iff.mpr (hchild.trans hc)
      rw [← hpath, if_neg (not_not.mpr (ht.mem_contents hf))]
      refine (congrArg onContents (lift_bind_ok found)).trans ?_
      refine (congrArg onContents (lift_bind_ok (living_eq_ok_iff.mpr hf))).trans ?_
      exact ht.onContents_detach_of_childless hf (ht.child_ne_root he hc)
  · rw [if_pos hp]
    exact congrArg onContents (lift_bind_error (ht.lookup_of_not_mem hp))

theorem names_eq (ht : t.Sound) (he : t.entry? id = some e) :
    e.node.children = t.contents.names e.path := by
  apply Dict.ext_get?
  intro name
  rw [Contents.get?_names, Entry.node, Dict.get?_map]
  by_cases h : e.path.child name ∈ t.contents
  · obtain ⟨c, hc⟩ := (ht.child_mem_contents_iff he).mp h
    simp [h, hc]
  · cases hc : e.children.get? name with
    | none => simp [h]
    | some c => exact absurd ((ht.child_mem_contents_iff he).mpr ⟨c, hc⟩) h

theorem getNode_eq (ht : t.Sound) (path : String) : t.getNode path = t.contents.getNode path := by
  rw [getNode, Contents.getNode]
  cases Path.parse path with
  | error err => rfl
  | ok p =>
    by_cases hp : p ∈ t.contents
    · obtain ⟨id, e, hid, he, rfl⟩ := ht.exists_lookup hp
      have hnames := ht.names_eq he
      simp [hid, living, he, ht.lookup_contents he, ← hnames, Entry.node, Entry.content, bind,
        Except.bind, pure, Except.pure]
    · have hlookup := Finmap.lookup_eq_none.mpr hp
      simp [ht.lookup_of_not_mem hp, hlookup, bind, Except.bind]

theorem listChildren_eq (ht : t.Sound) (path : String) :
    t.listChildren path = t.contents.listChildren path := by
  rw [listChildren, Contents.listChildren]
  cases Path.parse path with
  | error err => rfl
  | ok p =>
    by_cases hp : p ∈ t.contents
    · obtain ⟨id, e, hid, he, rfl⟩ := ht.exists_lookup hp
      simp [hid, living, he, hp, ht.names_eq he, bind, Except.bind, pure, Except.pure]
    · simp [ht.lookup_of_not_mem hp, hp, bind, Except.bind]

theorem answerEdit_onContents (r : EStateM.Result TreeError Tree Change) :
    answerEdit (onContents r) = ((answerEdit r).1.contents, (answerEdit r).2) := by
  cases r <;> rfl

theorem answer_eq (ht : t.Sound) (call : StoreCall) :
    t.contents.answer call = ((t.answer call).1.contents, (t.answer call).2) := by
  cases call with
  | create parent name kind =>
    rw [Contents.answer, ← ht.createChild_eq, answerEdit_onContents, Tree.answer]
  | remove parent name =>
    rw [Contents.answer, ← ht.removeChild_eq, answerEdit_onContents, Tree.answer]
  | get path => rw [Contents.answer, Tree.answer, ht.getNode_eq]
  | list path => rw [Contents.answer, Tree.answer, ht.listChildren_eq]

theorem sound_answer (ht : t.Sound) (call : StoreCall) : (t.answer call).1.Sound := by
  have left : ∀ r : EStateM.Result TreeError Tree Change, (answerEdit r).1 = (made r).1 := by
    intro r
    cases r <;> rfl
  cases call with
  | create parent name kind =>
    rw [Tree.answer, left]
    exact call_sound ht (.create parent name kind)
  | remove parent name =>
    rw [Tree.answer, left]
    exact call_sound ht (.remove parent name)
  | get path => exact ht
  | list path => exact ht

theorem answerAll_eq (ht : t.Sound) (calls : List StoreCall) :
    answerAll Contents.answer calls t.contents =
      ((answerAll Tree.answer calls t).1.contents, (answerAll Tree.answer calls t).2) := by
  induction calls generalizing t with
  | nil => rfl
  | cons call rest ih => simp only [answerAll, ht.answer_eq call, ih (ht.sound_answer call)]

theorem sound_answerAll (ht : t.Sound) (calls : List StoreCall) :
    (answerAll Tree.answer calls t).1.Sound := by
  induction calls generalizing t with
  | nil => exact ht
  | cons call rest ih => exact ih (ht.sound_answer call)

end Sound

/-- The store refines a prefix-closed map: each operation answers as on the contents and leaves
the contents that it leaves there, and so does any run of them. -/
theorem run_refines_contents (past : List Call) (calls : List StoreCall) :
    let t := run past
    (∀ parent name kind, onContents (t.createChild parent name kind) =
      allOrNothing t.contents (t.contents.createChild parent name kind)) ∧
    (∀ parent name, onContents (t.removeChild parent name) =
      allOrNothing t.contents (t.contents.removeChild parent name)) ∧
    (∀ path, t.getNode path = t.contents.getNode path) ∧
    (∀ path, t.listChildren path = t.contents.listChildren path) ∧
    (answerAll Tree.answer calls t).2 = (answerAll Contents.answer calls t.contents).2 ∧
    (answerAll Tree.answer calls t).1.contents =
      (answerAll Contents.answer calls t.contents).1 ∧
    (answerAll Tree.answer calls t).1.contents.PrefixClosed := by
  intro t
  have ht : t.Sound := run_sound past
  refine ⟨ht.createChild_eq, ht.removeChild_eq, ht.getNode_eq, ht.listChildren_eq, ?_, ?_,
    (ht.sound_answerAll calls).prefixClosed_contents⟩
  · rw [ht.answerAll_eq]
  · rw [ht.answerAll_eq]

end Tree

end HomeTree
