import HomeTree.Proofs.Contents.Query
import HomeTree.Proofs.Except

namespace HomeTree

def Content.unstyled (c : Content) : Content :=
  { c with style := ∅ }

theorem Content.unstyled_eq_iff {c d : Content} :
    c.unstyled = d.unstyled ↔ c.kind = d.kind ∧ c.attributes = d.attributes := by
  simp [unstyled]

namespace Contents

/-- The same paths with the same kinds and attributes, whatever the styles are. -/
def SameButStyle (m n : Contents) : Prop :=
  ∀ p, (m.lookup p).map Content.unstyled = (n.lookup p).map Content.unstyled

theorem sameButStyle_iff {m n : Contents} : m.SameButStyle n ↔
    ∀ p ∈ m.keys ∪ n.keys,
      (m.lookup p).map Content.unstyled = (n.lookup p).map Content.unstyled := by
  refine ⟨fun h p _ => h p, fun h p => ?_⟩
  by_cases hp : p ∈ m.keys ∪ n.keys
  · exact h p hp
  · have absent := not_or.mp (mt Finset.mem_union.mpr hp)
    rw [Finmap.mem_keys, Finmap.mem_keys] at absent
    rw [Finmap.lookup_eq_none.mpr absent.1, Finmap.lookup_eq_none.mpr absent.2]

instance (m n : Contents) : Decidable (m.SameButStyle n) :=
  decidable_of_iff _ sameButStyle_iff.symm

/-- Two states with the same answer, which are the same but for their styles. -/
def AlikeBehind {α : Type} (r s : Contents × α) : Prop :=
  r.1.SameButStyle s.1 ∧ r.2 = s.2

namespace SameButStyle

variable {m n : Contents} {p : Path}

theorem lookup_cases (h : m.SameButStyle n) (p : Path) :
    (m.lookup p = none ∧ n.lookup p = none) ∨
      ∃ c d, m.lookup p = some c ∧ n.lookup p = some d ∧ c.unstyled = d.unstyled := by
  have hp := h p
  cases hm : m.lookup p with
  | none =>
    rw [hm, Option.map_none] at hp
    exact .inl ⟨rfl, Option.map_eq_none_iff.mp hp.symm⟩
  | some c =>
    rw [hm, Option.map_some] at hp
    obtain ⟨d, hd, eq⟩ := Option.map_eq_some_iff.mp hp.symm
    exact .inr ⟨c, d, rfl, hd, eq.symm⟩

theorem mem_iff (h : m.SameButStyle n) {p : Path} : p ∈ m ↔ p ∈ n := by
  rw [← Finmap.lookup_isSome, ← Finmap.lookup_isSome, ← Option.isSome_map, h p, Option.isSome_map]

theorem paths_eq (h : m.SameButStyle n) : m.paths = n.paths := by
  have keys : m.keys = n.keys := Finset.ext fun q => by
    rw [Finmap.mem_keys, Finmap.mem_keys, h.mem_iff]
  rw [paths, paths, keys]

theorem children_eq (h : m.SameButStyle n) : m.children = n.children := by
  funext p
  rw [children, children, h.paths_eq]

theorem below_eq (h : m.SameButStyle n) (p : Path) : m.below p = n.below p := by
  rw [below, below, h.paths_eq]

theorem summary?_eq (h : m.SameButStyle n) (p : Path) : m.summary? p = n.summary? p := by
  have seen : ∀ k : Contents, k.summary? p = ((k.lookup p).map Content.unstyled).map
      fun c => ⟨p.name?, c.kind, c.attributes⟩ := fun k => by
    rw [Option.map_map]
    rfl
  rw [seen, seen, h p]

theorem lineage_eq (h : m.SameButStyle n) (p : Path) : m.lineage p = n.lineage p := by
  have summaries : m.summary? = n.summary? := funext h.summary?_eq
  rw [lineage, lineage, summaries]

theorem select_eq (h : m.SameButStyle n) (s : Selector) : m.select s = n.select s := by
  have lineages : m.lineage = n.lineage := funext h.lineage_eq
  rw [select, select, lineages, h.paths_eq]

theorem read?_attributes_eq (h : m.SameButStyle n) (name : String) (p : Path) :
    m.read? .attributes name p = n.read? .attributes name p := by
  have seen : ∀ k : Contents, k.read? .attributes name p =
      (k.summary? p).bind fun s => Facet.read? s name := fun k => by
    rw [summary?, Option.bind_map]
    rfl
  rw [seen, seen, h.summary?_eq]

theorem insert (h : m.SameButStyle n) {c d : Content} (eq : c.unstyled = d.unstyled) (p : Path) :
    SameButStyle (Finmap.insert p c m) (Finmap.insert p d n) := by
  intro q
  by_cases hq : q = p
  · rw [hq, Finmap.lookup_insert, Finmap.lookup_insert, Option.map_some, Option.map_some, eq]
  · rw [Finmap.lookup_insert_of_ne _ hq, Finmap.lookup_insert_of_ne _ hq, h q]

theorem erase (h : m.SameButStyle n) (p : Path) :
    SameButStyle (Finmap.erase p m) (Finmap.erase p n) := by
  intro q
  by_cases hq : q = p
  · rw [hq, Finmap.lookup_erase, Finmap.lookup_erase]
  · rw [Finmap.lookup_erase_ne hq, Finmap.lookup_erase_ne hq, h q]

theorem insertChild (h : m.SameButStyle n) (p : Path) (d : Descriptor) :
    Paired AlikeBehind (m.insertChild p d) (n.insertChild p d) := by
  refine (Paired.same (checkComponent d.name)).bind fun _ => ?_
  refine (Paired.same (checkKind d.kind)).bind fun _ => ?_
  have behind := h.insert (c := ⟨d.kind, d.attributes, ∅⟩) rfl (p.child d.name)
  simp only [h.mem_iff]
  split
  next => exact .error _
  next =>
    split
    next => exact .error _
    next =>
      split
      next => exact .error _
      next => exact .ok ⟨behind, by rw [behind.lineage_eq]⟩

theorem setAttribute (h : m.SameButStyle n) (p : Path) (name value : String) :
    Paired AlikeBehind (m.setAttribute p name value) (n.setAttribute p name value) := by
  unfold Contents.setAttribute
  rcases h.lookup_cases p with ⟨hm, hn⟩ | ⟨c, d, hm, hn, eq⟩
  · rw [hm, hn]
    exact .error _
  · obtain ⟨kind, attributes⟩ := Content.unstyled_eq_iff.mp eq
    have written : ({ c with attributes := c.attributes.insert name value } : Content).unstyled =
        ({ d with attributes := d.attributes.insert name value } : Content).unstyled := by
      simp only [Content.unstyled, kind, attributes]
    have behind := h.insert written p
    simp only [hm, hn]
    split
    next => exact .error _
    next => exact .ok ⟨behind, by rw [behind.lineage_eq]⟩

theorem setStyle (h : m.SameButStyle n) (p : Path) (name value : String) :
    Paired AlikeBehind (m.setStyle p name value) (n.setStyle p name value) := by
  unfold Contents.setStyle
  rcases h.lookup_cases p with ⟨hm, hn⟩ | ⟨c, d, hm, hn, eq⟩
  · rw [hm, hn]
    exact .error _
  · have behind := h.insert (c := { c with style := c.style.insert name value })
      (d := { d with style := d.style.insert name value }) eq p
    simp only [hm, hn]
    exact .ok ⟨behind, by rw [behind.lineage_eq]⟩

theorem removeEach (h : m.SameButStyle n) (ps : List Path) :
    AlikeBehind (m.removeEach ps) (n.removeEach ps) := by
  induction ps generalizing m n with
  | nil => exact ⟨h, rfl⟩
  | cons p rest ih =>
    obtain ⟨contents, changes⟩ := ih (h.erase p)
    exact ⟨contents, by rw [Contents.removeEach, Contents.removeEach, h.lineage_eq, changes]⟩

theorem prune (h : m.SameButStyle n) (p : Path) : AlikeBehind (m.prune p) (n.prune p) := by
  rw [Contents.prune, Contents.prune, h.below_eq]
  exact h.removeEach (n.below p)

end SameButStyle

end Contents

end HomeTree
