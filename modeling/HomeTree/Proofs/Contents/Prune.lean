import HomeTree.Proofs.Contents.Log

namespace HomeTree

namespace Contents

/-- Removes one path after the other, each recorded with the lineage that it still has. -/
def removeEach : List Path → Contents → Contents × List Change
  | [], m => (m, [])
  | p :: rest, m =>
    let r := removeEach rest (m.erase p)
    (r.1, ⟨p, .removed, m.lineage p⟩ :: r.2)

/-- The paths below a path, in closing order. -/
def below (m : Contents) (p : Path) : List Path :=
  (m.paths.filter p.Above).mergeSort fun q r => q.closing ≤ r.closing

def prune (m : Contents) (p : Path) : Contents × List Change :=
  m.removeEach (m.below p)

theorem lookup_removeEach (ps : List Path) (m : Contents) (q : Path) :
    (m.removeEach ps).1.lookup q = if q ∈ ps then none else m.lookup q := by
  induction ps generalizing m with
  | nil => simp [removeEach]
  | cons p rest ih =>
    rw [removeEach, ih]
    by_cases h : q = p
    · subst q
      simp
    · simp [h, Finmap.lookup_erase_ne h]

theorem mem_removeEach {ps : List Path} {m : Contents} {q : Path} :
    q ∈ (m.removeEach ps).1 ↔ q ∈ m ∧ q ∉ ps := by
  rw [← Finmap.lookup_isSome, ← Finmap.lookup_isSome, lookup_removeEach]
  by_cases h : q ∈ ps <;> simp [h]

/-- Records of removals alone are what the removal of their paths gives. -/
theorem removeEach_of_replays {m n : Contents} {cs : List Change} (h : Replays m cs n)
    (hc : ∀ c ∈ cs, c.event = .removed) : m.removeEach (cs.map Change.path) = (n, cs) := by
  induction h with
  | nil => rfl
  | @cons m n k c cs hafter hlineage _ ih =>
    have hremoved := hc c List.mem_cons_self
    obtain ⟨path, event, lineage⟩ := c
    cases hremoved
    have hn : m.erase path = n := by
      rcases after?_eq_some hafter with ⟨_, _, h⟩ | ⟨h, _⟩
      · exact h.symm
      · exact absurd rfl h
    rw [List.map_cons, removeEach, hn, ih fun d hd => hc d (List.mem_cons_of_mem _ hd)]
    simpa [recordedLineage] using hlineage.symm

theorem mem_below {m : Contents} {p q : Path} : q ∈ m.below p ↔ q ∈ m ∧ p.Above q := by
  simp [below, mem_paths]

theorem prune_of_not_mem {m : Contents} (hm : m.PrefixClosed) {p : Path} (hp : p ∉ m) :
    m.prune p = (m, []) := by
  have hnil : m.below p = [] := by
    apply List.eq_nil_iff_forall_not_mem.mpr
    intro q hq
    obtain ⟨hqm, habove⟩ := mem_below.mp hq
    exact hp (hm q p hqm habove)
  rw [prune, hnil, removeEach]

/-- A list in closing order with the paths below a path is the list of them. -/
theorem eq_below {m : Contents} {p : Path} {ps : List Path}
    (sorted : ps.Pairwise fun q r => q.closing < r.closing)
    (mem : ∀ q, q ∈ ps ↔ q ∈ m ∧ p.Above q) : ps = m.below p := by
  have : Std.Antisymm fun q r : Path => q.closing ≤ r.closing :=
    ⟨fun _ _ h h' => Path.closing_injective (le_antisymm h h')⟩
  have distinct : (m.below p).Nodup := by
    have hpaths : m.paths.Nodup := m.paths_sorted.imp fun h eq => by simp [eq] at h
    exact (List.mergeSort_perm _ _).nodup_iff.mpr (hpaths.filter _)
  have hbelow : (m.below p).Pairwise fun q r => q.closing ≤ r.closing := by
    have := @List.pairwise_mergeSort Path (fun q r => decide (q.closing ≤ r.closing))
      (fun _ _ _ h h' => by simp only [decide_eq_true_iff] at *; exact h.trans h')
      (fun q r => by simpa using le_total q.closing r.closing) (m.paths.filter p.Above)
    simpa [below] using this
  have hperm : ps.Perm (m.below p) := by
    refine (List.perm_ext_iff_of_nodup ?_ distinct).mpr fun q => (mem q).trans mem_below.symm
    exact sorted.imp fun h eq => by simp [eq] at h
  exact hperm.eq_of_pairwise' (sorted.imp le_of_lt) hbelow

end Contents

namespace Tree

/-- What is left and the records, when just the paths of a set were removed in closing order. -/
structure Removes (t : Tree) (gone : Path → Prop) (r : Tree × List Change) : Prop where
  steps : Steps t r.2 r.1
  removed : ∀ c ∈ r.2, c.event = .removed
  mem : ∀ q, q ∈ r.2.map Change.path ↔ q ∈ t.contents ∧ gone q
  closing : (r.2.map Change.path).Pairwise fun q r => q.closing < r.closing

namespace Removes

variable {t : Tree} {gone rest : Path → Prop} {r s : Tree × List Change}

theorem sound (h : Removes t gone r) (ht : t.Sound) : r.1.Sound :=
  h.steps.sound ht

theorem removeEach_eq (h : Removes t gone r) (ht : t.Sound) :
    t.contents.removeEach (r.2.map Change.path) = (r.1.contents, r.2) :=
  Contents.removeEach_of_replays (h.steps.replays ht) h.removed

theorem mem_contents (h : Removes t gone r) (ht : t.Sound) {q : Path} :
    q ∈ r.1.contents ↔ q ∈ t.contents ∧ ¬gone q := by
  have hmem : q ∈ (t.contents.removeEach (r.2.map Change.path)).1 ↔
      q ∈ t.contents ∧ q ∉ r.2.map Change.path := Contents.mem_removeEach
  rw [h.removeEach_eq ht, h.mem] at hmem
  rw [hmem]
  exact ⟨fun ⟨hq, hn⟩ => ⟨hq, fun hg => hn ⟨hq, hg⟩⟩, fun ⟨hq, hn⟩ => ⟨hq, fun hg => hn hg.2⟩⟩

/-- No slot is taken again while nodes are removed. -/
theorem entry?_before (h : Removes t gone r) (ht : t.Sound) {id : NodeId} {f : Entry}
    (hf : Tree.entry? r.1 id = some f) : ∃ e, t.entry? id = some e ∧ e.path = f.path := by
  obtain ⟨u, cs⟩ := r
  have hsteps : Steps t cs u := h.steps
  have hremoved : ∀ c ∈ cs, c.event = .removed := h.removed
  clear h
  induction hsteps with
  | refl => exact ⟨f, hf, rfl⟩
  | step first _ ih =>
    obtain ⟨g, hg, hgf⟩ := ih (first.sound ht) hf fun c hc =>
      hremoved c (List.mem_cons_of_mem _ hc)
    rcases first.entry?_before ht hg with ⟨e, he, heg⟩ | ⟨_, kind, hkind, _⟩
    · exact ⟨e, he, heg.trans hgf⟩
    · rw [hremoved _ List.mem_cons_self] at hkind
      cases hkind

theorem entry?_after (h : Removes t gone r) (ht : t.Sound) {id : NodeId} {e : Entry}
    (he : t.entry? id = some e) (hp : ¬gone e.path) :
    ∃ f, Tree.entry? r.1 id = some f ∧ f.path = e.path := by
  have hmem := (h.mem_contents ht).mpr ⟨ht.mem_contents he, hp⟩
  obtain ⟨i, f, hf, hpath⟩ := (h.sound ht).mem_contents_iff.mp hmem
  obtain ⟨g, hg, hgf⟩ := h.entry?_before ht hf
  cases ht.path_injective he hg (hgf.trans hpath).symm
  exact ⟨f, hf, hpath⟩

theorem nothing (h : ∀ q ∈ t.contents, ¬gone q) : Removes t gone (t, []) where
  steps := .refl
  removed := by simp
  mem := fun q => ⟨fun hq => by simp at hq, fun hq => absurd hq.2 (h q hq.1)⟩
  closing := List.Pairwise.nil

theorem congr (h : Removes t gone r) (hg : ∀ q ∈ t.contents, gone q ↔ rest q) :
    Removes t rest r :=
  ⟨h.steps, h.removed, fun q => (h.mem q).trans (and_congr_right (hg q)), h.closing⟩

theorem append (h : Removes t gone r) (ht : t.Sound) (h' : Removes r.1 rest s)
    (hlt : ∀ p q, gone p → rest q → p.closing < q.closing) :
    Removes t (fun q => gone q ∨ rest q) (s.1, r.2 ++ s.2) where
  steps := h.steps.trans h'.steps
  removed := by
    intro c hc
    rcases List.mem_append.mp hc with hc | hc
    · exact h.removed c hc
    · exact h'.removed c hc
  mem := by
    intro q
    rw [List.map_append, List.mem_append, h.mem, h'.mem, h.mem_contents ht]
    by_cases hq : gone q <;> simp [hq]
  closing := by
    rw [List.map_append]
    refine List.pairwise_append.mpr ⟨h.closing, h'.closing, ?_⟩
    intro p hp q hq
    exact hlt p q ((h.mem p).mp hp).2 ((h'.mem q).mp hq).2

theorem detach {id : NodeId} {e : Entry} (ht : t.Sound) (he : t.entry? id = some e)
    (hr : id ≠ rootId) (hchildless : t.contents.Childless e.path) :
    Removes t (fun q => q = e.path) ((t.detach id).1, [(t.detach id).2]) where
  steps := (Step.detach he hr ((ht.childless_contents_iff he).mp hchildless)).single
  removed := by simp [ht.change_detach he]
  mem := by
    intro q
    rw [ht.change_detach he]
    simp only [List.map_cons, List.map_nil, List.mem_singleton]
    refine ⟨fun hq => ⟨hq ▸ ht.mem_contents he, hq⟩, fun hq => hq.2⟩
  closing := List.pairwise_singleton _ _

end Removes

/-- Prunes and detaches one node after the other. -/
def pruneEach (depth : Nat) : List NodeId → Tree → Tree × List Change
  | [], t => (t, [])
  | id :: rest, t =>
    let r := t.pruneBelow depth id
    let d := r.1.detach id
    let s := pruneEach depth rest d.1
    (s.1, (r.2 ++ [d.2]) ++ s.2)

theorem pruneBelow_succ {t : Tree} {id : NodeId} {e : Entry} (he : t.entry? id = some e)
    (depth : Nat) : t.pruneBelow (depth + 1) id = pruneEach depth e.children.values t := by
  have fold : ∀ (ids : List NodeId) (u : Tree) (cs : List Change),
      ids.foldl (fun (acc : Tree × List Change) child =>
        let r := pruneBelow depth acc.1 child
        ((r.1.detach child).1, acc.2 ++ r.2 ++ [(r.1.detach child).2])) (u, cs) =
      ((pruneEach depth ids u).1, cs ++ (pruneEach depth ids u).2) := by
    intro ids
    induction ids with
    | nil => simp [pruneEach]
    | cons id rest ih =>
      intro u cs
      rw [List.foldl_cons, ih]
      simp [pruneEach]
  rw [pruneBelow, he]
  exact fold e.children.values t []

/-- To prune a node and then detach it removes the node and all that is below it. -/
theorem prune_detach_removes {t : Tree} (ht : t.Sound) {id : NodeId} {e : Entry}
    (he : t.entry? id = some e) (hr : id ≠ rootId) {r : Tree × List Change}
    (h : Removes t e.path.Above r) :
    Removes t e.path.Covers ((r.1.detach id).1, r.2 ++ [(r.1.detach id).2]) := by
  have hu := h.sound ht
  obtain ⟨f, hf, hpath⟩ := h.entry?_after ht he (Path.not_above_self _)
  have hchildless : r.1.contents.Childless f.path := by
    rw [Contents.childless_iff, hpath]
    intro q hq
    exact ((h.mem_contents ht).mp hq).2
  have both := h.append ht (Removes.detach hu hf hr hchildless) fun q q' hq hq' => by
    rw [hq', hpath]
    exact hq.closing_lt
  refine both.congr fun q _ => ?_
  rw [hpath, Path.covers_iff, or_comm]

/-- What is removed at or below one child leaves the later ones. -/
theorem Removes.later_children {t : Tree} (ht : t.Sound) {p : Path} {name : String}
    {r : Tree × List Change} (h : Removes t (p.child name).Covers r)
    {rest : List (String × NodeId)} (hlt : ∀ c ∈ rest, name < c.1)
    (hrest : ∀ c ∈ rest, ∃ f, t.entry? c.2 = some f ∧ f.path = p.child c.1) :
    ∀ c ∈ rest, ∃ f, Tree.entry? r.1 c.2 = some f ∧ f.path = p.child c.1 := by
  intro c hc
  obtain ⟨f, hf, hpath⟩ := hrest c hc
  have hkept : ¬(p.child name).Covers f.path := by
    rw [hpath]
    intro hcovers
    have := Path.child_covers_inj hcovers (Path.covers_self _)
    exact absurd (hlt c hc) (this ▸ String.lt_irrefl _)
  obtain ⟨g, hg, hgpath⟩ := h.entry?_after ht hf hkept
  exact ⟨g, hg, hgpath.trans hpath⟩

/-- Children that stand below one path are removed in the order of their names, each after all
that is below it. -/
theorem pruneEach_removes {depth : Nat} {p : Path} (ih : ∀ {t : Tree} {id : NodeId} {e : Entry},
      t.Sound → t.entry? id = some e →
      (∀ q ∈ t.contents, e.path.Above q → q.depth ≤ e.path.depth + depth) →
      Removes t e.path.Above (t.pruneBelow depth id))
    {children : List (String × NodeId)} (sorted : children.Pairwise fun a b => a.1 < b.1)
    {t : Tree} (ht : t.Sound)
    (hchildren : ∀ c ∈ children, ∃ f, t.entry? c.2 = some f ∧ f.path = p.child c.1)
    (hdepth : ∀ q ∈ t.contents, p.Above q → q.depth ≤ p.depth + (depth + 1)) :
    Removes t (fun q => ∃ c ∈ children, (p.child c.1).Covers q)
      (pruneEach depth (children.map Prod.snd) t) := by
  induction children generalizing t with
  | nil => exact Removes.nothing fun q _ ⟨c, hc, _⟩ => by simp at hc
  | cons head rest ihr =>
    obtain ⟨name, id⟩ := head
    obtain ⟨hlt, sorted⟩ := List.pairwise_cons.mp sorted
    obtain ⟨e, he, hpath⟩ := hchildren (name, id) List.mem_cons_self
    simp only at he hpath
    have hr : id ≠ rootId := by
      intro hroot
      exact Path.child_ne_root p name (hpath.symm.trans ((ht.path_root_iff he).mpr hroot))
    have first := prune_detach_removes ht he hr (ih ht he fun q hq habove => by
      have := hdepth q hq ((hpath ▸ Path.above_child p name).trans habove)
      rw [hpath, Path.depth_child]
      omega)
    rw [hpath] at first
    have later := ihr sorted (first.sound ht)
      (first.later_children ht hlt fun c hc => hchildren c (List.mem_cons_of_mem _ hc))
      fun q hq => hdepth q ((first.mem_contents ht).mp hq).1
    have all := first.append ht later fun q r hq ⟨c, hc, hr⟩ =>
      Path.closing_lt_of_sibling (hlt c hc) hq hr
    refine all.congr fun q _ => ?_
    simp only [List.exists_mem_cons_iff]

theorem pruneBelow_removes {depth : Nat} {t : Tree} {id : NodeId} {e : Entry} (ht : t.Sound)
    (he : t.entry? id = some e)
    (hdepth : ∀ q ∈ t.contents, e.path.Above q → q.depth ≤ e.path.depth + depth) :
    Removes t e.path.Above (t.pruneBelow depth id) := by
  -- The depth bounds the branches below the node; each round goes one name down.
  induction depth generalizing t id e with
  | zero =>
    refine Removes.nothing fun q hq habove => ?_
    have := hdepth q hq habove
    have := habove.depth_lt
    omega
  | succ depth ih =>
    rw [pruneBelow_succ he]
    have each := pruneEach_removes ih e.children.ordered ht
      (fun c hc => ht.entry?_of_mem_children he hc) hdepth
    exact each.congr fun q hq => (ht.above_iff_children_cover he hq).symm

namespace Sound

variable {t : Tree} {id : NodeId} {e : Entry}

/-- Pruning a node removes all that is below it and nothing else. -/
theorem prune_removes (ht : t.Sound) (he : t.entry? id = some e) :
    Removes t e.path.Above (t.prune id) := by
  refine pruneBelow_removes ht he fun q hq _ => ?_
  obtain ⟨i, f, hf, rfl⟩ := ht.mem_contents_iff.mp hq
  have := ht.depth_lt_size hf
  omega

theorem contents_prune (ht : t.Sound) (he : t.entry? id = some e) :
    t.contents.prune e.path = ((t.prune id).1.contents, (t.prune id).2) := by
  have h := ht.prune_removes he
  rw [Contents.prune, ← Contents.eq_below h.closing h.mem, h.removeEach_eq ht]

theorem prune_of_none (ht : t.Sound) (he : t.entry? id = none) : t.prune id = (t, []) := by
  obtain ⟨root, hroot, _⟩ := ht.root
  have hpos : 0 < t.slots.size := lt_size_of_living hroot
  obtain ⟨depth, hsize⟩ := Nat.exists_eq_succ_of_ne_zero (Nat.ne_of_gt hpos)
  rw [prune, hsize, pruneBelow, he]

end Sound

end Tree

end HomeTree
