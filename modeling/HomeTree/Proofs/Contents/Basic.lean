import HomeTree.Proofs.Path.Order
import HomeTree.Proofs.Tree.Sound
import Mathlib.Data.Finmap
import Mathlib.Data.Finset.Sort

namespace HomeTree

/-- What a node holds besides its place. -/
structure Content where
  kind : String
  attributes : Dict String
  style : Dict String
deriving DecidableEq

def Entry.content (e : Entry) : Content :=
  ⟨e.kind, e.attributes, e.style⟩

/-- A tree as a finite map from paths. -/
abbrev Contents : Type := Finmap fun _ : Path => Content

def Tree.contents (t : Tree) : Contents :=
  ((t.slots.toList.filterMap id).map fun e => (⟨e.path, e.content⟩ : (_ : Path) × Content)).toFinmap

namespace Contents

def summary? (m : Contents) (p : Path) : Option Summary :=
  (m.lookup p).map fun c => ⟨p.name?, c.kind, c.attributes⟩

/-- The summaries from the root to a path. -/
def lineage (m : Contents) (p : Path) : List Summary :=
  p.components.inits.filterMap fun components => m.summary? ⟨components⟩

/-- All paths, in the order of their components. -/
def paths (m : Contents) : List Path :=
  ((m.keys.image Path.components).sort (· ≤ ·)).map Path.mk

/-- The paths one name longer than a path, in the order of the names. -/
def children (m : Contents) (p : Path) : List Path :=
  m.paths.filter fun q => q.parent? = some p

/-- With a path the map has all paths above it. -/
def PrefixClosed (m : Contents) : Prop :=
  ∀ p q : Path, p ∈ m → q.Above p → q ∈ m

theorem lineage_root (m : Contents) : m.lineage Path.root = (m.summary? Path.root).toList := by
  cases h : m.summary? Path.root <;> simp_all [lineage, Path.root]

theorem lineage_child (m : Contents) (p : Path) (name : String) :
    m.lineage (p.child name) = m.lineage p ++ (m.summary? (p.child name)).toList := by
  have h : (p.child name).components.inits = p.components.inits ++ [(p.child name).components] := by
    simp [List.inits_append]
  rw [lineage, h, List.filterMap_append]
  cases hs : m.summary? (p.child name) <;> simp_all [lineage, Path.child]

theorem getLast?_lineage {m : Contents} {p : Path} {c : Content} (h : m.lookup p = some c) :
    (m.lineage p).getLast? = some ⟨p.name?, c.kind, c.attributes⟩ := by
  have hs : m.summary? p = some ⟨p.name?, c.kind, c.attributes⟩ := by rw [summary?, h]; rfl
  rcases Path.eq_root_or_child p with rfl | ⟨above, name, rfl⟩
  · rw [lineage_root, hs]
    rfl
  · rw [lineage_child, hs]
    simp

/-- A path that is there has one summary for each path above it, and its own. -/
theorem length_lineage {m : Contents} (hm : m.PrefixClosed) {p : Path} (hp : p ∈ m) :
    (m.lineage p).length = p.depth + 1 := by
  have one : ∀ {q}, q ∈ m → (m.summary? q).toList.length = 1 := by
    intro q hq
    obtain ⟨c, hc⟩ := Finmap.mem_iff.mp hq
    rw [summary?, hc]
    rfl
  induction p using Path.childInduction with
  | root => rw [lineage_root, one hp, Path.depth_root]
  | child p name ih =>
    have habove := hm _ p hp (Path.above_child p name)
    rw [lineage_child, List.length_append, one hp, ih habove, Path.depth_child]

theorem mem_paths {m : Contents} {p : Path} : p ∈ m.paths ↔ p ∈ m := by
  simp only [paths, List.mem_map, Finset.mem_sort, Finset.mem_image, Finmap.mem_keys]
  constructor
  · rintro ⟨_, ⟨q, hq, rfl⟩, rfl⟩
    exact hq
  · intro hp
    exact ⟨p.components, ⟨p, hp, rfl⟩, rfl⟩

theorem paths_sorted (m : Contents) :
    m.paths.Pairwise fun p q => p.components < q.components := by
  rw [paths, List.pairwise_map]
  exact (Finset.sortedLT_sort _).pairwise

theorem eq_of_sorted {ps qs : List Path} (hp : ps.Pairwise fun p q => p.components < q.components)
    (hq : qs.Pairwise fun p q => p.components < q.components) (mem : ∀ p, p ∈ ps ↔ p ∈ qs) :
    ps = qs := by
  have : Std.Irrefl fun p q : Path => p.components < q.components := ⟨fun _ => lt_irrefl _⟩
  have : Std.Antisymm fun p q : Path => p.components < q.components :=
    ⟨fun _ _ h h' => absurd h' (lt_asymm h)⟩
  exact hp.eq_of_mem_iff hq fun p => mem p

/-- A list in path order with the paths of a map is the list of its paths. -/
theorem eq_paths {m : Contents} {ps : List Path}
    (sorted : ps.Pairwise fun p q => p.components < q.components) (mem : ∀ p, p ∈ ps ↔ p ∈ m) :
    ps = m.paths :=
  eq_of_sorted sorted m.paths_sorted fun p => (mem p).trans mem_paths.symm

theorem mem_children {m : Contents} {p q : Path} :
    q ∈ m.children p ↔ q ∈ m ∧ ∃ name, q = p.child name := by
  rw [children, List.mem_filter, mem_paths, decide_eq_true_iff]
  refine and_congr_right fun _ => ⟨Path.eq_child_of_parent?, ?_⟩
  rintro ⟨name, rfl⟩
  exact Path.parent?_child p name

end Contents

namespace Tree.Sound

variable {t : Tree}

/-- No path is met twice in the slots. -/
theorem pairwise_path (ht : t.Sound) :
    (t.slots.toList.filterMap id).Pairwise fun e f => e.path ≠ f.path := by
  rw [List.pairwise_filterMap, List.pairwise_iff_getElem]
  intro i j hi hj hij e he f hf hpath
  have hei : t.entry? i = some e := by
    rw [entry?_eq_some_iff]
    simpa [Array.getElem?_eq_some_iff] using ⟨hi, he⟩
  have hfj : t.entry? j = some f := by
    rw [entry?_eq_some_iff]
    simpa [Array.getElem?_eq_some_iff] using ⟨hj, hf⟩
  exact Nat.ne_of_lt hij (ht.path_injective hei hfj hpath)

/-- The map of a tree answers with what its nodes hold. -/
theorem lookup_contents_iff (ht : t.Sound) {p : Path} {c : Content} :
    t.contents.lookup p = some c ↔ ∃ id e, t.entry? id = some e ∧ e.path = p ∧ e.content = c := by
  have nodup : ((t.slots.toList.filterMap id).map fun e =>
      (⟨e.path, e.content⟩ : (_ : Path) × Content)).NodupKeys := by
    rw [List.NodupKeys, List.keys, List.map_map, List.Nodup, List.pairwise_map]
    exact ht.pairwise_path
  rw [contents, Finmap.dlookup_list_toFinmap, ← Option.mem_def, List.mem_dlookup_iff nodup]
  simp only [List.mem_map, List.mem_filterMap, id_eq, exists_eq_right, Array.mem_toList_iff]
  constructor
  · rintro ⟨e, he, heq⟩
    cases heq
    obtain ⟨i, hi, hei⟩ := Array.getElem_of_mem he
    exact ⟨i, e, entry?_eq_some_iff.mpr (Array.getElem?_eq_some_iff.mpr ⟨hi, hei⟩), rfl, rfl⟩
  · rintro ⟨i, e, he, rfl, rfl⟩
    exact ⟨e, Array.mem_of_getElem? (entry?_eq_some_iff.mp he), rfl⟩

theorem lookup_contents (ht : t.Sound) {id : NodeId} {e : Entry} (he : t.entry? id = some e) :
    t.contents.lookup e.path = some e.content :=
  ht.lookup_contents_iff.mpr ⟨id, e, he, rfl, rfl⟩

theorem mem_contents_iff (ht : t.Sound) {p : Path} :
    p ∈ t.contents ↔ ∃ id e, t.entry? id = some e ∧ e.path = p := by
  rw [Finmap.mem_iff]
  constructor
  · rintro ⟨c, hc⟩
    obtain ⟨id, e, he, hpath, _⟩ := ht.lookup_contents_iff.mp hc
    exact ⟨id, e, he, hpath⟩
  · rintro ⟨id, e, he, rfl⟩
    exact ⟨e.content, ht.lookup_contents he⟩

theorem mem_contents (ht : t.Sound) {id : NodeId} {e : Entry} (he : t.entry? id = some e) :
    e.path ∈ t.contents :=
  ht.mem_contents_iff.mpr ⟨id, e, he, rfl⟩

/-- A tree is as large as it has paths. -/
theorem size_eq_card (ht : t.Sound) : t.size = t.contents.keys.card := by
  have paths : t.contents.keys = ((t.slots.toList.filterMap id).map Entry.path).toFinset := by
    ext p
    rw [Finmap.mem_keys, ht.mem_contents_iff, List.mem_toFinset]
    simp only [List.mem_map, List.mem_filterMap, id_eq, exists_eq_right, Array.mem_toList_iff]
    constructor
    · rintro ⟨i, e, he, hpath⟩
      exact ⟨e, Array.mem_of_getElem? (entry?_eq_some_iff.mp he), hpath⟩
    · rintro ⟨e, he, hpath⟩
      obtain ⟨i, hi, hei⟩ := Array.getElem_of_mem he
      exact ⟨i, e, entry?_eq_some_iff.mpr (Array.getElem?_eq_some_iff.mpr ⟨hi, hei⟩), hpath⟩
  have nodup : ((t.slots.toList.filterMap id).map Entry.path).Nodup :=
    List.pairwise_map.mpr ht.pairwise_path
  rw [paths, List.toFinset_card_of_nodup nodup, List.length_map, size, ht.live, occupied,
    ← Array.countP_toList, List.length_filterMap_eq_countP]
  rfl

theorem prefixClosed_contents (ht : t.Sound) : t.contents.PrefixClosed := by
  intro p q hp hq
  obtain ⟨id, e, he, rfl⟩ := ht.mem_contents_iff.mp hp
  obtain ⟨above, f, hf, rfl⟩ := ht.exists_above he hq
  exact ht.mem_contents hf

theorem entry?_of_mem_children (ht : t.Sound) {id : NodeId} {e : Entry} (he : t.entry? id = some e)
    {c : String × NodeId} (hc : c ∈ e.children.entries) :
    ∃ f, t.entry? c.2 = some f ∧ f.path = e.path.child c.1 := by
  obtain ⟨f, hf, _, hpath⟩ := ht.child he (Dict.mem_entries_iff.mp hc)
  exact ⟨f, hf, hpath⟩

/-- What is there below a node is at or below one of its children. -/
theorem above_iff_children_cover (ht : t.Sound) {id : NodeId} {e : Entry}
    (he : t.entry? id = some e) {q : Path} (hq : q ∈ t.contents) :
    e.path.Above q ↔ ∃ c ∈ e.children.entries, (e.path.child c.1).Covers q := by
  constructor
  · intro habove
    obtain ⟨below, f, hf, rfl⟩ := ht.mem_contents_iff.mp hq
    obtain ⟨name, c, g, hc, hg, hpath, hrest⟩ := ht.child_of_above he hf habove
    refine ⟨(name, c), Dict.mem_entries_iff.mpr hc, ?_⟩
    rw [← hpath, Path.covers_iff]
    rcases hrest with rfl | hrest
    · cases Option.some.inj (hf.symm.trans hg)
      exact Or.inl rfl
    · exact Or.inr hrest
  · rintro ⟨c, _, hcovers⟩
    exact Path.above_of_covers_child hcovers

end Tree.Sound

end HomeTree
