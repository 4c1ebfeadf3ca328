import HomeTree.Proofs.Message.RoundTrip
import HomeTree.Proofs.Query.Steps

namespace HomeTree

variable {α β : Type}

/-- The error of a result, if it is one, comes back from its JSON. -/
def FailsInRange (r : Except TreeError α) : Prop :=
  ∀ e, r = .error e → e.InRange

namespace FailsInRange

theorem ok (a : α) : FailsInRange (.ok a) := nofun

theorem error {e : TreeError} (h : e.InRange) : FailsInRange (.error e : Except TreeError α) := by
  rintro _ ⟨rfl⟩
  exact h

theorem map {r : Except TreeError α} (h : FailsInRange r) (f : α → β) :
    FailsInRange (r.map f) := by
  cases r with
  | ok a => exact ok (f a)
  | error e => exact error (h e rfl)

theorem bind {r : Except TreeError α} {f : α → Except TreeError β} (h : FailsInRange r)
    (next : ∀ a, FailsInRange (f a)) : FailsInRange (r >>= f) := by
  cases r with
  | ok a => exact next a
  | error e => exact error (h e rfl)

theorem ite {p : Prop} [Decidable p] {r q : Except TreeError α} (yes : FailsInRange r)
    (no : FailsInRange q) : FailsInRange (if p then r else q) := by
  split
  next => exact yes
  next => exact no

theorem mapM {f : α → Except TreeError β} (h : ∀ a, FailsInRange (f a)) (l : List α) :
    FailsInRange (l.mapM f) := by
  induction l with
  | nil => exact ok []
  | cons a l ih =>
    rw [List.mapM_cons]
    exact (h a).bind fun _ => ih.bind fun _ => ok _

end FailsInRange

theorem failsInRange_checkComponent (name : String) : FailsInRange (checkComponent name) :=
  .ite (.ok ()) (.error trivial)

theorem failsInRange_checkKind (kind : String) : FailsInRange (checkKind kind) :=
  .ite (.ok ()) (.error trivial)

theorem Path.failsInRange_parse (s : String) : FailsInRange (parse s) := by
  unfold parse
  split
  next => exact .ok _
  next => exact .error trivial

theorem Selector.failsInRange_parse (s : String) : FailsInRange (parse s) := by
  unfold parse
  split
  next => exact .ok _
  next => exact .error trivial

namespace Tree

variable (t : Tree)

theorem failsInRange_lookup (p : Path) : FailsInRange (t.lookup p) := by
  unfold lookup
  split
  next => exact .ok _
  next => exact .error trivial

theorem failsInRange_living (id : NodeId) : FailsInRange (t.living id) := by
  unfold living
  split
  next => exact .ok _
  next => exact .error trivial

theorem failsInRange_child (id : NodeId) (p : Path) (name : String) :
    FailsInRange (t.child id p name) := by
  unfold child
  split
  next => exact .ok _
  next => exact .error trivial

theorem failsInRange_above (id : NodeId) : FailsInRange (t.above id) := by
  unfold above
  split
  next => exact .ok _
  next => exact .error trivial

theorem failsInRange_listChildren (path : String) : FailsInRange (t.listChildren path) :=
  (Path.failsInRange_parse path).bind fun p => (t.failsInRange_lookup p).bind fun id =>
    (t.failsInRange_living id).bind fun _ => .ok _

theorem failsInRange_getNode (path : String) : FailsInRange (t.getNode path) :=
  (Path.failsInRange_parse path).bind fun p => (t.failsInRange_lookup p).bind fun id =>
    (t.failsInRange_living id).bind fun _ => .ok _

end Tree

/-- The errors of attempts at a tree come back from their JSON. -/
abbrev TriesInRange (x : EStateM TreeError Tree α) : Prop :=
  Fails (fun _ e _ => e.InRange) x

theorem FailsInRange.lift_bind {r : Except TreeError α} {f : α → EStateM TreeError Tree β}
    (h : FailsInRange r) (next : ∀ a, TriesInRange (f a)) :
    TriesInRange ((liftM r : EStateM TreeError Tree α) >>= f) :=
  .lift_bind (fun e he _ => h e he) next

namespace Tree

theorem triesInRange_insertChild (parent : NodeId) (d : Descriptor) :
    TriesInRange (insertChild parent d) := by
  refine (failsInRange_checkComponent d.name).lift_bind fun _ => ?_
  refine (failsInRange_checkKind d.kind).lift_bind fun _ => .get_bind fun t => ?_
  refine (t.failsInRange_living parent).lift_bind fun e => ?_
  refine .ite (.throw fun _ => trivial) (.ite (.throw fun _ => trivial) ?_)
  exact .of_ok fun _ => ⟨_, _, rfl⟩

theorem triesInRange_insertSibling (id : NodeId) (d : Descriptor) :
    TriesInRange (insertSibling id d) :=
  .get_bind fun t => (t.failsInRange_above id).lift_bind fun above =>
    triesInRange_insertChild above d

theorem triesInRange_write (place : Place) (name value : String) (id : NodeId) :
    TriesInRange (write place name value id) := by
  cases place with
  | attributes =>
    refine .get_bind fun t => (t.failsInRange_living id).lift_bind fun e => ?_
    exact .ite (.throw fun _ => trivial) (.of_ok fun _ => ⟨_, _, rfl⟩)
  | style =>
    refine .get_bind fun t => (t.failsInRange_living id).lift_bind fun e => ?_
    exact .of_ok fun _ => ⟨_, _, rfl⟩

theorem triesInRange_createChild (parent name kind : String) :
    TriesInRange (createChild parent name kind) := by
  refine (Path.failsInRange_parse parent).lift_bind fun p => ?_
  refine (failsInRange_checkComponent name).lift_bind fun _ => ?_
  refine (failsInRange_checkKind kind).lift_bind fun _ => .get_bind fun t => ?_
  exact (t.failsInRange_lookup p).lift_bind fun id =>
    triesInRange_insertChild id (.plain kind name)

theorem triesInRange_removeChild (parent name : String) :
    TriesInRange (removeChild parent name) := by
  refine (Path.failsInRange_parse parent).lift_bind fun p => ?_
  refine (failsInRange_checkComponent name).lift_bind fun _ => .get_bind fun t => ?_
  refine (t.failsInRange_lookup p).lift_bind fun id => .get_bind fun t => ?_
  refine (t.failsInRange_child id p name).lift_bind fun child => .get_bind fun t => ?_
  refine (t.failsInRange_living child).lift_bind fun e => ?_
  exact .ite (.of_ok fun _ => ⟨_, _, rfl⟩) (.throw fun _ => trivial)

end Tree

namespace Transform

theorem failsInRange_ofRaw (raw : RawTransform) : FailsInRange (ofRaw raw) := by
  unfold ofRaw
  split
  next => exact .ok _
  next => exact .error trivial

theorem failsInRange_changeEach {act : NodeId → EStateM TreeError Tree (List Change)}
    (h : ∀ id, TriesInRange (act id)) (ids : List NodeId) (t : Tree) :
    FailsInRange (changeEach act ids t).result := by
  induction ids generalizing t with
  | nil => exact .ok ()
  | cons id rest ih =>
    rw [changeEach]
    cases hact : act id t with
    | error e u => exact .error (h id t e u hact)
    | ok cs u => exact ih u

theorem failsInRange_changing (access : Access) (method : String)
    {act : NodeId → EStateM TreeError Tree (List Change)} (h : ∀ id, TriesInRange (act id))
    (t : Tree) (c : Cursor) : FailsInRange (changing access method act t c).result := by
  cases access with
  | shared => exact .error trivial
  | exclusive => exact (failsInRange_changeEach h c.working t).map _

theorem failsInRange_enact (access : Access) (tr : Transform) (t : Tree) (c : Cursor) :
    FailsInRange (tr.enact access t c).result := by
  cases tr with
  | write place name value =>
    exact failsInRange_changing access _
      (fun id => fails_single (Tree.triesInRange_write place name value id)) t c
  | append d =>
    exact failsInRange_changing access _
      (fun id => fails_single (Tree.triesInRange_insertChild id d)) t c
  | after d =>
    exact failsInRange_changing access _
      (fun id => fails_single (Tree.triesInRange_insertSibling id d)) t c
  | empty =>
    exact failsInRange_changing access _ (fun id => .of_ok fun _ => ⟨_, _, rfl⟩) t c
  | _ => exact .ok _

theorem failsInRange_apply (access : Access) (tr : Transform) (t : Tree) (c : Cursor) :
    FailsInRange (tr.apply access t c).result :=
  (failsInRange_enact access tr t c).map _

theorem failsInRange_applyAll (access : Access) (trs : List Transform) (t : Tree) (c : Cursor) :
    FailsInRange (applyAll access trs t c).result := by
  induction trs generalizing t c with
  | nil => exact .ok c
  | cons tr rest ih =>
    have first := failsInRange_apply access tr t c
    rw [applyAll]
    cases h : (tr.apply access t c).result with
    | error e => exact .error (first e h)
    | ok c => exact ih (tr.apply access t _).tree c

end Transform

theorem CompiledQuery.failsInRange_compile (spec : QuerySpec) : FailsInRange (compile spec) :=
  (Selector.failsInRange_parse spec.query).bind fun _ =>
    (FailsInRange.mapM Transform.failsInRange_ofRaw spec.transforms).bind fun _ => .ok _

namespace Plan

theorem failsInRange_runMember (access : Access) (t : Tree) {m : Except TreeError CompiledQuery}
    (h : FailsInRange m) : FailsInRange (runMember access t m).result := by
  cases m with
  | error e => exact .error (h e rfl)
  | ok q => exact (Transform.failsInRange_applyAll access q.transforms t _).map _

theorem failsInRange_runMembers (access : Access) {ms : List (Except TreeError CompiledQuery)}
    (h : ∀ m ∈ ms, FailsInRange m) (t : Tree) :
    ∀ r ∈ (runMembers access ms t).results, FailsInRange r := by
  induction ms generalizing t with
  | nil => simp [runMembers]
  | cons m rest ih =>
    obtain ⟨first, others⟩ := List.forall_mem_cons.mp h
    exact List.forall_mem_cons.mpr
      ⟨failsInRange_runMember access t first, ih others (runMember access t m).tree⟩

theorem failsInRange_execute (specs : List QuerySpec) (t : Tree) :
    ∀ r ∈ ((compile specs).execute t).results, FailsInRange r := by
  apply failsInRange_runMembers
  intro m hm
  obtain ⟨spec, -, rfl⟩ := List.mem_map.mp hm
  exact CompiledQuery.failsInRange_compile spec

end Plan

end HomeTree
