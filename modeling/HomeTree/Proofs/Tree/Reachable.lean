import HomeTree.Proofs.Query.Steps

namespace HomeTree.Tree

/-- What a tree can be asked to change. -/
inductive Call where
  | create (parent name kind : String)
  | remove (parent name : String)
  | execute (plan : Plan)

def call (t : Tree) : Call → Tree
  | .create parent name kind => (made (t.createChild parent name kind)).1
  | .remove parent name => (made (t.removeChild parent name)).1
  | .execute plan => (plan.execute t).tree

/-- The tree after calls, beginning with the root alone. -/
def run (calls : List Call) : Tree :=
  calls.foldl call new

theorem createChild_eq_ok {t u : Tree} {parent name kind : String} {c : Change}
    (h : t.createChild parent name kind = .ok c u) :
    ∃ id, t.insertChild id (.plain kind name) = .ok c u := by
  obtain ⟨p, -, h⟩ := exists_of_lift_bind_eq_ok h
  obtain ⟨-, -, h⟩ := exists_of_lift_bind_eq_ok h
  obtain ⟨-, -, h⟩ := exists_of_lift_bind_eq_ok h
  obtain ⟨id, -, h⟩ := exists_of_lift_bind_eq_ok h
  exact ⟨id, h⟩

theorem createChild_failsEarly (parent name kind : String) :
    FailsEarly (createChild parent name kind) := by
  refine .lift_bind (fun _ _ _ => rfl) fun p => .lift_bind (fun _ _ _ => rfl) fun _ => ?_
  refine .lift_bind (fun _ _ _ => rfl) fun _ => .get_bind fun t => ?_
  exact .lift_bind (fun _ _ _ => rfl) fun id => insertChild_failsEarly id (.plain kind name)

theorem child_eq_ok_iff {t : Tree} {id c : NodeId} {p : Path} {name : String} :
    t.child id p name = .ok c ↔ t.child? id name = some c := by
  rw [child]
  cases t.child? id name <;> simp

theorem removeChild_eq_ok {t u : Tree} {parent name : String} {c : Change}
    (h : t.removeChild parent name = .ok c u) :
    ∃ id child e, t.child? id name = some child ∧ t.entry? child = some e ∧
      e.children.isEmpty = true ∧ t.detach child = (u, c) := by
  obtain ⟨p, -, h⟩ := exists_of_lift_bind_eq_ok h
  obtain ⟨-, -, h⟩ := exists_of_lift_bind_eq_ok h
  obtain ⟨id, -, h⟩ := exists_of_lift_bind_eq_ok h
  obtain ⟨child, hchild, h⟩ := exists_of_lift_bind_eq_ok h
  obtain ⟨e, he, h⟩ := exists_of_lift_bind_eq_ok h
  split at h
  next hempty =>
    cases h
    exact ⟨id, child, e, child_eq_ok_iff.mp hchild, living_eq_ok_iff.mp he, hempty, rfl⟩
  next => cases h

theorem removeChild_failsEarly (parent name : String) : FailsEarly (removeChild parent name) := by
  refine .lift_bind (fun _ _ _ => rfl) fun p => .lift_bind (fun _ _ _ => rfl) fun _ => ?_
  refine .get_bind fun t => .lift_bind (fun _ _ _ => rfl) fun id => .get_bind fun t => ?_
  refine .lift_bind (fun _ _ _ => rfl) fun child => .get_bind fun t => ?_
  refine .lift_bind (fun _ _ _ => rfl) fun e => ?_
  exact .ite (.of_ok fun _ => ⟨_, _, rfl⟩) (.throw fun _ => rfl)

theorem removeChild_step {t u : Tree} (ht : t.Sound) {parent name : String} {c : Change}
    (h : t.removeChild parent name = .ok c u) : Step t c u := by
  obtain ⟨id, child, e, hchild, he, hempty, hr⟩ := removeChild_eq_ok h
  cases hf : t.entry? id with
  | none => simp [child?, hf] at hchild
  | some f =>
    have hc : f.children.get? name = some child := by simpa [child?, hf] using hchild
    have step := Step.detach he (ht.child_ne_root hf hc) hempty
    rwa [hr] at step

theorem createChild_steps (t : Tree) (parent name kind : String) :
    let r := made (t.createChild parent name kind)
    Steps t r.2 r.1 := by
  refine made_steps (createChild_failsEarly parent name kind) fun h => ?_
  obtain ⟨id, hinsert⟩ := createChild_eq_ok h
  exact .insertChild hinsert

theorem removeChild_steps {t : Tree} (ht : t.Sound) (parent name : String) :
    let r := made (t.removeChild parent name)
    Steps t r.2 r.1 :=
  made_steps (removeChild_failsEarly parent name) (removeChild_step ht)

theorem call_steps {t : Tree} (ht : t.Sound) (call : Call) : ∃ cs, Steps t cs (t.call call) := by
  cases call with
  | create parent name kind => exact ⟨_, t.createChild_steps parent name kind⟩
  | remove parent name => exact ⟨_, removeChild_steps ht parent name⟩
  | execute plan => exact ⟨_, plan.execute_steps ht⟩

theorem call_sound {t : Tree} (ht : t.Sound) (call : Call) : (t.call call).Sound := by
  obtain ⟨cs, steps⟩ := call_steps ht call
  exact steps.sound ht

theorem run_sound (calls : List Call) : (run calls).Sound := by
  have from_sound : ∀ (calls : List Call) {t : Tree}, t.Sound → (calls.foldl call t).Sound := by
    intro calls
    induction calls with
    | nil => exact fun ht => ht
    | cons first rest ih => exact fun ht => ih (call_sound ht first)
  exact from_sound calls sound_new

/-- How an arena is arranged: what is so of the root alone, how nodes are linked, found and
counted, and which texts they can have. -/
structure Arranged (t : Tree) : Prop where
  root : ∃ e, t.entry? rootId = some e ∧ e.path = Path.root ∧ e.parent = none ∧ e.kind = rootKind
  root_alone : ∀ {id e}, t.entry? id = some e → id ≠ rootId →
    e.path ≠ Path.root ∧ e.parent ≠ none ∧ e.kind ≠ rootKind
  child : ∀ {p e name c}, t.entry? p = some e → e.children.get? name = some c →
    ∃ f, t.entry? c = some f ∧ f.parent = some p ∧ f.path = e.path.child name
  parent : ∀ {c f}, t.entry? c = some f → c ≠ rootId →
    ∃ p e name, f.parent = some p ∧ t.entry? p = some e ∧ e.children.get? name = some c ∧
      f.path = e.path.child name
  path_injective : ∀ {id other e f}, t.entry? id = some e → t.entry? other = some f →
    e.path = f.path → id = other
  lookup_path : ∀ {id e}, t.entry? id = some e → t.lookup e.path = .ok id
  climb_root : ∀ {id e}, t.entry? id = some e → ∀ steps,
    t.climb steps id = some rootId ↔ steps = e.path.depth
  free_nodup : t.free.Nodup
  mem_free : ∀ id, id ∈ t.free ↔ id < t.slots.size ∧ t.entry? id = none
  live : t.live = t.slots.countP Option.isSome
  kind : ∀ {id e}, t.entry? id = some e → id ≠ rootId → e.kind ≠ "" ∧
    (∀ c ∈ e.kind.toList, c.isAlphanum = true ∨ c = '_' ∨ c = '-') ∧ e.kind ≠ "root"
  names : ∀ {id e}, t.entry? id = some e → ∀ name ∈ e.path.components,
    name ≠ "" ∧ '/' ∉ name.toList ∧ name ≠ "." ∧ name ≠ ".."
  attributes : ∀ {id e}, t.entry? id = some e → e.attributes.get? "name" = none

theorem validKind_iff {kind : String} : validKind kind = true ↔ kind ≠ "" ∧
    (∀ c ∈ kind.toList, c.isAlphanum = true ∨ c = '_' ∨ c = '-') ∧ kind ≠ "root" := by
  simp [validKind, isWordChar, rootKind, and_assoc, or_assoc]

theorem validComponent_iff {name : String} : validComponent name = true ↔
    name ≠ "" ∧ '/' ∉ name.toList ∧ name ≠ "." ∧ name ≠ ".." := by
  simp [validComponent, and_assoc]

/-- Whatever is asked of a tree, it stays arranged. -/
theorem run_arranged (calls : List Call) : (run calls).Arranged := by
  have ht := run_sound calls
  refine ⟨?_, ?_, ht.child, ?_, ht.path_injective, ?_, ht.climb_eq_root_iff, ht.free_nodup,
    fun _ => ht.mem_free, ht.live, ?_, ?_, fun he => (ht.checked he).attributes⟩
  · obtain ⟨e, he, hpath, hkind, hparent⟩ := ht.root
    exact ⟨e, he, hpath, hparent, hkind⟩
  · intro id e he hr
    exact ⟨fun h => hr ((ht.path_root_iff he).mp h), fun h => hr ((ht.parent_none_iff he).mp h),
      fun h => hr ((ht.kind_root_iff he).mp h)⟩
  · intro c f hf hr
    exact ht.parent_path hf hr
  · intro id e he
    rw [lookup, ht.lookup?_path he]
  · intro id e he hr
    exact validKind_iff.mp (ht.kind he hr)
  · intro id e he name hname
    exact validComponent_iff.mp ((ht.checked he).names name hname)

end HomeTree.Tree
