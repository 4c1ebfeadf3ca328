import HomeTree.Proofs.Contents.Prune
import HomeTree.Proofs.Contents.Walk
import Mathlib.Data.List.Forall2
import HomeTree.Proofs.Selector.Facet

namespace HomeTree.Tree

def At (t : Tree) (id : NodeId) (p : Path) : Prop :=
  ∃ e, t.entry? id = some e ∧ e.path = p

/-- A node at a path, or one that is gone together with its path. -/
def Held (t : Tree) (id : NodeId) (p : Path) : Prop :=
  t.At id p ∨ (t.entry? id = none ∧ p ∉ t.contents)

variable {t u : Tree} {id : NodeId} {p : Path}

theorem At.held (h : t.At id p) : t.Held id p :=
  Or.inl h

theorem At.contains (h : t.At id p) : t.contains id = true := by
  obtain ⟨e, he, _⟩ := h
  simp [Tree.contains, he]

namespace Sound

theorem mem_contents_of_at (ht : t.Sound) (h : t.At id p) : p ∈ t.contents := by
  obtain ⟨e, he, rfl⟩ := h
  exact ht.mem_contents he

theorem at_biUnique (ht : t.Sound) : Relator.BiUnique t.At := by
  constructor
  · rintro id other p ⟨e, he, rfl⟩ ⟨f, hf, hpath⟩
    exact ht.path_injective he hf hpath.symm
  · rintro id p q ⟨e, he, rfl⟩ ⟨f, hf, rfl⟩
    rw [Option.some.inj (he.symm.trans hf)]

theorem contains_iff_of_held (ht : t.Sound) (h : t.Held id p) :
    t.contains id = true ↔ p ∈ t.contents := by
  rcases h with h | ⟨hnone, hp⟩
  · exact iff_of_true h.contains (ht.mem_contents_of_at h)
  · exact iff_of_false (by simp [Tree.contains, hnone]) hp

theorem at_of_held (h : t.Held id p) (hp : p ∈ t.contents) : t.At id p := by
  rcases h with h | ⟨_, habsent⟩
  · exact h
  · exact absurd hp habsent

/-- The parent of a node stands at the path above. -/
theorem parent_at (ht : t.Sound) (h : t.At id p) :
    Option.Rel t.At (t.entry? id >>= Entry.parent) p.parent? := by
  obtain ⟨e, he, rfl⟩ := h
  by_cases hr : id = rootId
  · have hparent := (ht.parent_none_iff he).mpr hr
    have hpath := (ht.path_root_iff he).mpr hr
    simp only [he, Option.bind_eq_bind, Option.bind_some, hparent, hpath, Path.parent?_root]
    exact .none
  · obtain ⟨above, f, name, hparent, hf, _, hpath⟩ := ht.parent_path he hr
    simp only [he, Option.bind_eq_bind, Option.bind_some, hparent, hpath, Path.parent?_child]
    exact .some ⟨f, hf, rfl⟩

/-- The children of a node stand at the paths one name longer, in the order of these. -/
theorem children_at (ht : t.Sound) {e : Entry} (he : t.entry? id = some e) :
    List.Forall₂ t.At e.children.values (t.contents.children e.path) := by
  have hpaths : (e.children.entries.map fun c => e.path.child c.1) =
      t.contents.children e.path := by
    apply Contents.eq_of_sorted
    · rw [List.pairwise_map]
      exact e.children.ordered.imp fun h =>
        Path.components_lt_of_sibling h (Path.covers_self _) (Path.covers_self _)
    · exact t.contents.paths_sorted.filter _
    · intro q
      rw [List.mem_map, Contents.mem_children]
      constructor
      · rintro ⟨c, hc, rfl⟩
        obtain ⟨f, hf, hpath⟩ := ht.entry?_of_mem_children he hc
        exact ⟨hpath ▸ ht.mem_contents hf, c.1, rfl⟩
      · rintro ⟨hq, name, rfl⟩
        obtain ⟨c, hc⟩ := (ht.child_mem_contents_iff he).mp hq
        exact ⟨(name, c), Dict.mem_entries_iff.mpr hc, rfl⟩
  rw [← hpaths, Dict.values, List.forall₂_map_left_iff, List.forall₂_map_right_iff,
    List.forall₂_same]
  exact fun c hc => ht.entry?_of_mem_children he hc

/-- What a selector picks in the tree stands at what it accepts in the contents. The walk shows it
the nodes themselves, the contents summaries of them. -/
theorem select_at (ht : t.Sound) (s : Selector) :
    List.Forall₂ t.At (t.select s)
      (t.contents.paths.filter fun p => s.accepts (t.contents.lineage p)) := by
  have walk := ht.visits_walks
  have hfilter : (t.contents.paths.filter fun p => s.accepts (t.contents.lineage p)) =
      (t.visits.filter fun v => s.accepts v.lineage).map fun v => v.entry.path := by
    rw [← ht.paths_visits, List.filter_map]
    refine congrArg _ (List.filter_congr fun v hv => ?_)
    rw [← s.accepts_map Entry.shows_summary v.lineage, walk.lineage v hv]
    rfl
  rw [hfilter, select, List.forall₂_map_left_iff, List.forall₂_map_right_iff, List.forall₂_same]
  intro v hv
  exact ⟨v.entry, walk.entry v (List.mem_of_mem_filter hv), rfl⟩

end Sound

/-- A step that is no removal leaves every node at its path. -/
theorem Step.at_of_kept {c : Change} (h : Step t c u) (ht : t.Sound) (hc : c.event ≠ .removed)
    (hid : t.At id p) : u.At id p := by
  obtain ⟨e, he, rfl⟩ := hid
  exact h.entry?_after ht he (Contents.mem_after (h.after?_eq ht).1 hc (ht.mem_contents he))

/-- Where nodes are removed, those that stood at the removed paths are gone with them. -/
theorem Removes.held {gone : Path → Prop} {r : Tree × List Change} (h : Removes t gone r)
    (ht : t.Sound) (hid : t.Held id p) : r.1.Held id p := by
  -- A node that lives behind the removals lived before them; one that does not took its path along.
  have hmem : p ∈ r.1.contents ↔ p ∈ t.contents ∧ ¬gone p := h.mem_contents ht
  cases hf : Tree.entry? r.1 id with
  | some f =>
    obtain ⟨e, he, hpath⟩ := h.entry?_before ht hf
    rcases hid with ⟨g, hg, rfl⟩ | ⟨hnone, _⟩
    · cases Option.some.inj (he.symm.trans hg)
      exact Or.inl ⟨f, hf, hpath.symm⟩
    · rw [hnone] at he
      cases he
  | none =>
    refine Or.inr ⟨hf, fun hp => ?_⟩
    obtain ⟨e, he, rfl⟩ := Sound.at_of_held hid (hmem.mp hp).1
    obtain ⟨g, hg, _⟩ := h.entry?_after ht he (hmem.mp hp).2
    rw [hf] at hg
    cases hg

end HomeTree.Tree
