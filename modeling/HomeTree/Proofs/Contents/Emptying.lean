import HomeTree.Proofs.Contents.Store
import HomeTree.Proofs.Path.Text
import HomeTree.Proofs.Selector.Selection

namespace HomeTree

namespace Contents

/-- The lineage of a path depends on the paths from the root to it alone. -/
theorem lineage_congr {m n : Contents} {p : Path}
    (h : ∀ q : Path, q.Covers p → m.lookup q = n.lookup q) : m.lineage p = n.lineage p := by
  apply List.filterMap_congr
  intro components hc
  rw [summary?, summary?, h ⟨components⟩ ((List.mem_inits _ _).mp hc)]

/-- Where no path is removed before one below it, each record has the lineage from before all
removals. -/
theorem lineage_removeEach {ps : List Path} (h : ps.Pairwise fun p q => ¬p.Covers q)
    (m : Contents) : ∀ c ∈ (m.removeEach ps).2, c.path ∈ ps ∧ c.lineage = m.lineage c.path := by
  induction ps generalizing m with
  | nil => exact fun c hc => by cases hc
  | cons p rest ih =>
    obtain ⟨hp, hrest⟩ := List.pairwise_cons.mp h
    refine List.forall_mem_cons.mpr ⟨⟨List.mem_cons_self, rfl⟩, fun c hc => ?_⟩
    obtain ⟨hmem, hlineage⟩ := ih hrest (m.erase p) c hc
    refine ⟨List.mem_cons_of_mem _ hmem, hlineage.trans (lineage_congr fun q hq => ?_)⟩
    have hne : q ≠ p := by
      rintro rfl
      exact hp c.path hmem hq
    exact Finmap.lookup_erase_ne hne

end Contents

namespace Tree

theorem pruneEach_of_le {depth more : Nat} {p : Path} (ih : ∀ {t : Tree} {id : NodeId} {e : Entry},
      t.Sound → t.entry? id = some e →
      (∀ q ∈ t.contents, e.path.Above q → q.depth ≤ e.path.depth + depth) →
      t.pruneBelow more id = t.pruneBelow depth id)
    {children : List (String × NodeId)} (sorted : children.Pairwise fun a b => a.1 < b.1)
    {t : Tree} (ht : t.Sound)
    (hchildren : ∀ c ∈ children, ∃ f, t.entry? c.2 = some f ∧ f.path = p.child c.1)
    (hdepth : ∀ q ∈ t.contents, p.Above q → q.depth ≤ p.depth + (depth + 1)) :
    pruneEach more (children.map Prod.snd) t = pruneEach depth (children.map Prod.snd) t := by
  induction children generalizing t with
  | nil => rfl
  | cons head rest ihr =>
    obtain ⟨name, id⟩ := head
    obtain ⟨hlt, sorted⟩ := List.pairwise_cons.mp sorted
    obtain ⟨⟨e, he, hpath⟩, hrest⟩ := List.forall_mem_cons.mp hchildren
    simp only at he hpath
    have hr : id ≠ rootId := fun hroot =>
      Path.child_ne_root p name (hpath.symm.trans ((ht.path_root_iff he).mpr hroot))
    have hbelow : ∀ q ∈ t.contents, e.path.Above q → q.depth ≤ e.path.depth + depth := by
      intro q hq habove
      have := hdepth q hq ((hpath ▸ Path.above_child p name).trans habove)
      rw [hpath, Path.depth_child]
      omega
    have first := prune_detach_removes ht he hr (pruneBelow_removes ht he hbelow)
    rw [hpath] at first
    have later := ihr sorted (first.sound ht) (first.later_children ht hlt hrest)
      fun q hq => hdepth q ((first.mem_contents ht).mp hq).1
    simp only [List.map_cons, pruneEach, ih ht he hbelow, later]

theorem pruneBelow_of_le {depth more : Nat} (hle : depth ≤ more) {t : Tree} {id : NodeId}
    {e : Entry} (ht : t.Sound) (he : t.entry? id = some e)
    (hdepth : ∀ q ∈ t.contents, e.path.Above q → q.depth ≤ e.path.depth + depth) :
    t.pruneBelow more id = t.pruneBelow depth id := by
  induction depth generalizing more t id e with
  | zero =>
    cases more with
    | zero => rfl
    | succ more =>
      have hempty : e.children.isEmpty = true := by
        refine (ht.childless_contents_iff he).mp (Contents.childless_iff.mpr fun q hq habove => ?_)
        have := hdepth q hq habove
        have := habove.depth_lt
        omega
      have hnone : e.children.values = [] := by
        rw [Dict.values, List.isEmpty_iff.mp hempty, List.map_nil]
      rw [pruneBelow_succ he, hnone]
      rfl
  | succ depth ih =>
    obtain ⟨more, rfl⟩ := Nat.exists_eq_add_one_of_ne_zero (show more ≠ 0 by omega)
    rw [pruneBelow_succ he, pruneBelow_succ he]
    exact pruneEach_of_le (fun ht he hdepth => ih (by omega) ht he hdepth) e.children.ordered ht
      (fun c hc => ht.entry?_of_mem_children he hc) hdepth

/-- Removes the node at a path as a child of the node above it. The root is the child of none. -/
def removeAt (p : Path) : EStateM TreeError Tree Change :=
  match p.parent?, p.name? with
  | some above, some name => removeChild above.text name
  | _, _ => throw (.noSuchNode p.text)

/-- Removes path after path; the first failure ends it. -/
def removeEach : List Path → EStateM TreeError Tree (List Change)
  | [] => return []
  | p :: rest => do
    let c ← removeAt p
    let cs ← removeEach rest
    return c :: cs

theorem Sound.removeAt_eq_detach {t : Tree} (ht : t.Sound) {id : NodeId} {e : Entry}
    (he : t.entry? id = some e) (hr : id ≠ rootId) (hempty : e.children.isEmpty = true) :
    t.removeAt e.path = .ok (t.detach id).2 (t.detach id).1 := by
  obtain ⟨above, f, name, _, hf, hc, hpath⟩ := ht.parent_path he hr
  have hname : checkComponent name = .ok () :=
    Path.checkComponent_eq_ok_iff.mpr ((ht.checked he).names name (by simp [hpath]))
  have hparse : Path.parse f.path.text = .ok f.path := Path.parse_text (ht.checked hf).names
  have hlookup : t.lookup f.path = .ok above := by rw [lookup, ht.lookup?_path hf]
  have hchild : t.child above f.path name = .ok id :=
    child_eq_ok_iff.mpr (by simp [child?, hf, hc])
  rw [removeAt, hpath, Path.parent?_child, Path.name?_child]
  refine (lift_bind_ok hparse).trans ((lift_bind_ok hname).trans ?_)
  refine (lift_bind_ok hlookup).trans ((lift_bind_ok hchild).trans ?_)
  refine (lift_bind_ok (living_eq_ok_iff.mpr he)).trans ?_
  rw [if_pos hempty]
  rfl

theorem Step.detach_of_removed {t u : Tree} {c : Change} (h : Step t c u)
    (hc : c.event = .removed) :
    ∃ id e, t.entry? id = some e ∧ id ≠ rootId ∧ e.children.isEmpty = true ∧
      t.detach id = (u, c) := by
  cases h with
  | insertChild h =>
    obtain ⟨_, _, _, _, _, _, _, rfl⟩ := insertChild_eq_ok h
    cases hc
  | setAttribute h =>
    obtain ⟨_, _, _, _, rfl⟩ := setAttribute_eq_ok h
    cases hc
  | setStyle h =>
    obtain ⟨_, _, _, rfl⟩ := setStyle_eq_ok h
    cases hc
  | detach he hr hempty => exact ⟨_, _, he, hr, hempty, rfl⟩

/-- A run that only removes detaches one node without children after the other. -/
theorem Steps.detach_induction {motive : Tree → List Change → Tree → Prop}
    (nil : ∀ t, motive t [] t)
    (cons : ∀ {t u v : Tree} {c : Change} {cs : List Change} {id : NodeId} {e : Entry}, t.Sound →
      t.entry? id = some e → id ≠ rootId → e.children.isEmpty = true → t.detach id = (u, c) →
      motive u cs v → motive t (c :: cs) v)
    {t u : Tree} {cs : List Change} (h : Steps t cs u) (ht : t.Sound)
    (hremoved : ∀ c ∈ cs, c.event = .removed) : motive t cs u := by
  induction h with
  | refl => exact nil _
  | step first _ ih =>
    obtain ⟨hc, hcs⟩ := List.forall_mem_cons.mp hremoved
    obtain ⟨id, e, he, hr, hempty, hdetach⟩ := first.detach_of_removed hc
    exact cons ht he hr hempty hdetach (ih (first.sound ht) hcs)

theorem live_detach {t : Tree} {id : NodeId} {e : Entry} (ht : t.Sound)
    (he : t.entry? id = some e) : (t.detach id).1.live + 1 = t.live := by
  have hpos : 0 < t.live := by
    rw [ht.live]
    exact Array.countP_pos_iff.mpr ⟨some e, Array.mem_of_getElem? (entry?_eq_some_iff.mp he), rfl⟩
  have hlive : (t.detach id).1.live = t.live - 1 := by
    simp only [Tree.detach, he]
    split <;> simp
  omega

namespace Removes

variable {t : Tree} {gone : Path → Prop} {r : Tree × List Change}

theorem removeEach_eq_ok (h : Removes t gone r) (ht : t.Sound) :
    t.removeEach (r.2.map Change.path) = .ok r.2 r.1 := by
  refine Steps.detach_induction (motive := fun t cs u =>
    t.removeEach (cs.map Change.path) = .ok cs u) (fun _ => rfl) ?_ h.steps ht h.removed
  intro t u v c cs id e ht he hr hempty hdetach ih
  have hpath : c.path = e.path :=
    congrArg Change.path ((congrArg Prod.snd hdetach).symm.trans (ht.change_detach he))
  have first := ht.removeAt_eq_detach he hr hempty
  rw [hdetach] at first
  rw [List.map_cons, hpath, removeEach]
  simp only [bind, EStateM.bind, first, ih]
  rfl

theorem size_eq (h : Removes t gone r) (ht : t.Sound) :
    Tree.size r.1 + r.2.length = t.size := by
  refine Steps.detach_induction (motive := fun t cs u => u.live + cs.length = t.live)
    (fun _ => rfl) ?_ h.steps ht h.removed
  intro t u v c cs id e ht he _ _ hdetach ih
  have hlive : u.live + 1 = t.live := by
    have := live_detach ht he
    rwa [hdetach] at this
  rw [List.length_cons]
  omega

theorem lookup_contents (h : Removes t gone r) (ht : t.Sound) [DecidablePred gone] (q : Path) :
    (Tree.contents r.1).lookup q = if gone q then none else t.contents.lookup q := by
  have hlookup := Contents.lookup_removeEach (r.2.map Change.path) t.contents q
  rw [h.removeEach_eq ht] at hlookup
  simp only [h.mem] at hlookup
  by_cases hq : q ∈ t.contents
  · simpa [hq] using hlookup
  · have hnone := Finmap.lookup_eq_none.mpr hq
    simpa [hq, hnone] using hlookup

theorem lineage_eq (h : Removes t gone r) (ht : t.Sound) {c : Change} (hc : c ∈ r.2) :
    ∃ i f, t.entry? i = some f ∧ f.path = c.path ∧ c.lineage = t.lineage i := by
  have uncovered := h.closing.imp Path.not_covers_of_closing_lt
  have hlineage := Contents.lineage_removeEach uncovered t.contents c
  rw [h.removeEach_eq ht] at hlineage
  obtain ⟨hpath, hlineage⟩ := hlineage hc
  obtain ⟨i, f, hf, hfc⟩ := ht.mem_contents_iff.mp ((h.mem c.path).mp hpath).1
  exact ⟨i, f, hf, hfc, by rw [hlineage, ht.lineage_eq hf, hfc]⟩

end Removes

/-- What emptying a node leaves, and the records of it. -/
structure Empties (t : Tree) (id : NodeId) (e : Entry) (u : Tree) (cs : List Change) : Prop where
  contents : ∀ q, u.contents.lookup q = if e.path.Above q then none else t.contents.lookup q
  node : ∃ f, u.entry? id = some f ∧ f.path = e.path ∧ f.content = e.content ∧
    f.children.isEmpty = true
  size : u.size + cs.length = t.size
  removed : ∀ c ∈ cs, c.event = .removed
  distinct : (cs.map Change.path).Nodup
  mem : ∀ q, q ∈ cs.map Change.path ↔ q ∈ t.contents ∧ e.path.Above q
  order : (cs.map Change.path).Pairwise Path.ClosesBefore
  lineage : ∀ c ∈ cs, ∃ i f, t.entry? i = some f ∧ f.path = c.path ∧ c.lineage = t.lineage i
  one_by_one : t.removeEach (cs.map Change.path) = .ok cs u

theorem Removes.empties {t : Tree} {id : NodeId} {e : Entry} {r : Tree × List Change}
    (h : Removes t e.path.Above r) (ht : t.Sound) (he : t.entry? id = some e) :
    Empties t id e r.1 r.2 where
  contents := h.lookup_contents ht
  node := by
    have hu := h.sound ht
    obtain ⟨f, hf, hpath⟩ := h.entry?_after ht he (Path.not_above_self _)
    have hlookup := h.lookup_contents ht e.path
    rw [← hpath, hu.lookup_contents hf, hpath, if_neg (Path.not_above_self _),
      ht.lookup_contents he] at hlookup
    refine ⟨f, hf, hpath, Option.some.inj hlookup, (hu.childless_contents_iff hf).mp ?_⟩
    rw [Contents.childless_iff, hpath]
    exact fun q hq => ((h.mem_contents ht).mp hq).2
  size := h.size_eq ht
  removed := h.removed
  distinct := h.closing.imp fun hlt heq => by simp [heq] at hlt
  mem := h.mem
  order := h.closing.imp Path.closesBefore_of_closing_lt
  lineage := fun _ hc => h.lineage_eq ht hc
  one_by_one := h.removeEach_eq_ok ht

/-- Emptying a node removes all that is below it and nothing else, with one record for each node,
in closing order and with the lineage that it had. Removing these nodes one by one in that order is
never refused and comes to the same, and no branch is too deep for the slots there are. -/
theorem emptying_removes_descendants (past : List Edit) (id : NodeId) (e : Entry)
    (he : Tree.entry? (built past) id = some e) :
    let t := built past
    Empties t id e (t.prune id).1 (t.prune id).2 ∧
      ∀ depth, t.slots.size ≤ depth → t.pruneBelow depth id = t.prune id := by
  intro t
  have ht : t.Sound := built_sound past
  refine ⟨(ht.prune_removes he).empties ht he, fun depth hdepth => ?_⟩
  refine pruneBelow_of_le hdepth ht he fun q hq _ => ?_
  obtain ⟨i, f, hf, rfl⟩ := ht.mem_contents_iff.mp hq
  have := ht.depth_lt_size hf
  omega

/-- A node with two branches, one of which has a branch of its own. -/
def branching : List Edit :=
  [.create "/" "a" "node", .create "/a" "d" "node", .create "/a" "b" "node",
    .create "/a/b" "c" "node", .create "/" "b" "node"]

theorem emptying_removes_descendants_branching :
    ∃ e, Tree.entry? (built branching) 1 = some e ∧
      Empties (built branching) 1 e ((built branching).prune 1).1 ((built branching).prune 1).2 ∧
      ((built branching).prune 1).2.map Change.path =
        [⟨["a", "b", "c"]⟩, ⟨["a", "b"]⟩, ⟨["a", "d"]⟩] := by
  have living : (Tree.entry? (built branching) 1).isSome = true := by decide
  obtain ⟨e, he⟩ := Option.isSome_iff_exists.mp living
  exact ⟨e, he, (emptying_removes_descendants branching 1 e he).1, by decide⟩

end Tree

end HomeTree
