import HomeTree.Proofs.Path.Above
import HomeTree.Proofs.Tree.Slots

namespace HomeTree

theorem checkKind_eq_ok_iff {kind : String} : checkKind kind = .ok () ↔ validKind kind = true := by
  rw [checkKind]
  cases validKind kind <;> simp

/-- The texts of a node have passed the checks of its creation and of every write. -/
structure Entry.Checked (e : Entry) : Prop where
  kind : e.path ≠ Path.root → validKind e.kind = true
  names : ∀ name ∈ e.path.components, validComponent name = true
  attributes : e.attributes.get? nameAttribute = none

theorem Entry.Checked.of_texts {e f : Entry} (h : e.Checked) (hpath : f.path = e.path)
    (hkind : f.kind = e.kind) (hattr : f.attributes = e.attributes) : f.Checked := by
  refine ⟨?_, ?_, ?_⟩
  · rw [hpath, hkind]
    exact h.kind
  · rw [hpath]
    exact h.names
  · rw [hattr]
    exact h.attributes

namespace Tree

/-- What every step on an arena keeps. -/
structure Sound (t : Tree) : Prop extends Counted t where
  root : ∃ e, t.entry? rootId = some e ∧ e.path = Path.root ∧ e.kind = rootKind ∧ e.parent = none
  child : ∀ {p e name c}, t.entry? p = some e → e.children.get? name = some c →
    ∃ f, t.entry? c = some f ∧ f.parent = some p ∧ f.path = e.path.child name
  parent : ∀ {c f}, t.entry? c = some f → c ≠ rootId →
    ∃ p e name, f.parent = some p ∧ t.entry? p = some e ∧ e.children.get? name = some c
  checked : ∀ {c f}, t.entry? c = some f → f.Checked

theorem eq_of_entry?_new {id : NodeId} {e : Entry} (h : new.entry? id = some e) :
    id = rootId ∧ e = ⟨Path.root, rootKind, ∅, ∅, ∅, none⟩ := by
  cases id with
  | zero => exact ⟨rfl, (Option.some.inj h).symm⟩
  | succ id => simp [Tree.entry?, new] at h

theorem sound_new : new.Sound where
  root := ⟨_, rfl, rfl, rfl, rfl⟩
  child := by
    intro p e name c he hc
    obtain ⟨_, rfl⟩ := eq_of_entry?_new he
    simp at hc
  parent := by
    intro c f hf hc
    exact absurd (eq_of_entry?_new hf).1 hc
  checked := by
    intro c f hf
    obtain ⟨_, rfl⟩ := eq_of_entry?_new hf
    exact ⟨fun h => absurd rfl h, by simp, rfl⟩
  free_nodup := List.nodup_nil
  mem_free := by
    intro id
    cases id with
    | zero => simp [new, Tree.entry?]
    | succ id => simp [new]
  live := rfl

namespace Sound

variable {t : Tree} {id : NodeId} {e : Entry}

/-- A node other than the root stands in its parent under the last name of its path. -/
theorem parent_path (ht : t.Sound) (he : t.entry? id = some e) (hr : id ≠ rootId) :
    ∃ p f name, e.parent = some p ∧ t.entry? p = some f ∧ f.children.get? name = some id ∧
      e.path = f.path.child name := by
  obtain ⟨p, f, name, hp, hf, hc⟩ := ht.parent he hr
  obtain ⟨e', he', _, hpath⟩ := ht.child hf hc
  cases Option.some.inj (he.symm.trans he')
  exact ⟨p, f, name, hp, hf, hc, hpath⟩

theorem path_root_iff (ht : t.Sound) (he : t.entry? id = some e) :
    e.path = Path.root ↔ id = rootId := by
  constructor
  · intro h
    by_contra hr
    obtain ⟨p, f, name, _, _, _, hpath⟩ := ht.parent_path he hr
    exact Path.child_ne_root _ _ (hpath.symm.trans h)
  · rintro rfl
    obtain ⟨f, hf, hpath, _⟩ := ht.root
    cases Option.some.inj (he.symm.trans hf)
    exact hpath

theorem parent_none_iff (ht : t.Sound) (he : t.entry? id = some e) :
    e.parent = none ↔ id = rootId := by
  constructor
  · intro h
    by_contra hr
    obtain ⟨p, f, name, hp, _⟩ := ht.parent he hr
    simp [h] at hp
  · rintro rfl
    obtain ⟨f, hf, _, _, hparent⟩ := ht.root
    cases Option.some.inj (he.symm.trans hf)
    exact hparent

theorem kind (ht : t.Sound) (he : t.entry? id = some e) (hr : id ≠ rootId) :
    validKind e.kind = true :=
  (ht.checked he).kind fun h => hr ((ht.path_root_iff he).mp h)

theorem kind_root_iff (ht : t.Sound) (he : t.entry? id = some e) :
    e.kind = rootKind ↔ id = rootId := by
  constructor
  · intro h
    by_contra hr
    have := ht.kind he hr
    simp [validKind, h] at this
  · rintro rfl
    obtain ⟨f, hf, _, hkind, _⟩ := ht.root
    cases Option.some.inj (he.symm.trans hf)
    exact hkind

theorem child_ne_root (ht : t.Sound) (he : t.entry? id = some e) {name : String} {c : NodeId}
    (hc : e.children.get? name = some c) : c ≠ rootId := by
  obtain ⟨f, hf, hp, _⟩ := ht.child he hc
  intro h
  have := (ht.parent_none_iff hf).mpr h
  simp [this] at hp

theorem path_injective (ht : t.Sound) {other : NodeId} {f : Entry}
    (he : t.entry? id = some e) (hf : t.entry? other = some f) (h : e.path = f.path) :
    id = other := by
  generalize hp : e.path = p at h
  -- From the root down: nodes with one path have one parent, where both stand under the last name.
  induction p using Path.childInduction generalizing id other e f with
  | root =>
    rw [(ht.path_root_iff he).mp hp, (ht.path_root_iff hf).mp h.symm]
  | child p name ih =>
    have hid : id ≠ rootId := fun hr =>
      Path.child_ne_root p name (hp.symm.trans ((ht.path_root_iff he).mpr hr))
    have hother : other ≠ rootId := fun hr =>
      Path.child_ne_root p name (h.trans ((ht.path_root_iff hf).mpr hr))
    obtain ⟨i, ei, ni, _, hei, hci, hpi⟩ := ht.parent_path he hid
    obtain ⟨j, fj, nj, _, hfj, hcj, hpj⟩ := ht.parent_path hf hother
    obtain ⟨hpathi, hnamei⟩ := Path.child_inj.mp (hp.symm.trans hpi)
    obtain ⟨hpathj, hnamej⟩ := Path.child_inj.mp (h.trans hpj)
    cases ih hei hfj hpathi.symm hpathj
    cases Option.some.inj (hei.symm.trans hfj)
    rw [← hnamei] at hci
    rw [← hnamej] at hcj
    exact Option.some.inj (hci.symm.trans hcj)

theorem lookup?_child (p : Path) (name : String) :
    t.lookup? (p.child name) = (t.lookup? p).bind fun id => t.child? id name := by
  simp [lookup?, List.foldlM_append, Option.bind_eq_bind]

/-- Looking a path up finds the node that has it, and only such a node. -/
theorem lookup?_eq_some_iff (ht : t.Sound) {p : Path} :
    t.lookup? p = some id ↔ ∃ e, t.entry? id = some e ∧ e.path = p := by
  induction p using Path.childInduction generalizing id with
  | root =>
    have hl : t.lookup? Path.root = some rootId := rfl
    rw [hl, Option.some.injEq]
    constructor
    · rintro rfl
      obtain ⟨e, he, hpath, _⟩ := ht.root
      exact ⟨e, he, hpath⟩
    · rintro ⟨e, he, hpath⟩
      exact ((ht.path_root_iff he).mp hpath).symm
  | child p name ih =>
    rw [lookup?_child, Option.bind_eq_some_iff]
    constructor
    · rintro ⟨above, ha, hc⟩
      obtain ⟨f, hf, hpath⟩ := ih.mp ha
      have hc' : f.children.get? name = some id := by simpa [child?, hf] using hc
      obtain ⟨e, he, _, hchild⟩ := ht.child hf hc'
      exact ⟨e, he, hchild.trans (hpath ▸ rfl)⟩
    · rintro ⟨e, he, hpath⟩
      have hr : id ≠ rootId := fun hr =>
        Path.child_ne_root p name (hpath.symm.trans ((ht.path_root_iff he).mpr hr))
      obtain ⟨above, f, other, _, hf, hc, hchild⟩ := ht.parent_path he hr
      obtain ⟨rfl, rfl⟩ := Path.child_inj.mp (hpath.symm.trans hchild)
      exact ⟨above, ih.mpr ⟨f, hf, rfl⟩, by simpa [child?, hf] using hc⟩

theorem lookup?_path (ht : t.Sound) (he : t.entry? id = some e) : t.lookup? e.path = some id :=
  ht.lookup?_eq_some_iff.mpr ⟨e, he, rfl⟩

theorem exists_above (ht : t.Sound) (he : t.entry? id = some e) {p : Path}
    (hp : p.Above e.path) : ∃ above f, t.entry? above = some f ∧ f.path = p := by
  generalize hq : e.path = q at hp
  induction q using Path.childInduction generalizing id e with
  | root => exact absurd hp (Path.not_above_root p)
  | child q name ih =>
    have hr : id ≠ rootId := fun hr =>
      Path.child_ne_root q name (hq.symm.trans ((ht.path_root_iff he).mpr hr))
    obtain ⟨above, f, other, _, hf, _, hchild⟩ := ht.parent_path he hr
    obtain ⟨hfq, _⟩ := Path.child_inj.mp (hq.symm.trans hchild)
    rcases Path.above_child_iff.mp hp with rfl | h
    · exact ⟨above, f, hf, hfq.symm⟩
    · exact ih hf hfq.symm h

theorem child_of_above (ht : t.Sound) {below : NodeId} {f : Entry} (he : t.entry? id = some e)
    (hf : t.entry? below = some f) (h : e.path.Above f.path) :
    ∃ name c g, e.children.get? name = some c ∧ t.entry? c = some g ∧
      g.path = e.path.child name ∧ (below = c ∨ g.path.Above f.path) := by
  generalize hq : f.path = q at h
  induction q using Path.childInduction generalizing below f with
  | root => exact absurd h (Path.not_above_root _)
  | child q name ih =>
    have hr : below ≠ rootId := fun hr =>
      Path.child_ne_root q name (hq.symm.trans ((ht.path_root_iff hf).mpr hr))
    obtain ⟨above, g, other, _, hg, hc, hchild⟩ := ht.parent_path hf hr
    obtain ⟨rfl, rfl⟩ := Path.child_inj.mp (hq.symm.trans hchild)
    rcases Path.above_child_iff.mp h with heq | hlt
    · cases ht.path_injective he hg heq
      cases Option.some.inj (he.symm.trans hg)
      exact ⟨name, below, f, hc, hf, hq, Or.inl rfl⟩
    · obtain ⟨first, c, k, hfirst, hk, hpath, hrest⟩ := ih hg rfl hlt
      refine ⟨first, c, k, hfirst, hk, hpath, Or.inr ?_⟩
      rcases hrest with rfl | hrest
      · cases Option.some.inj (hg.symm.trans hk)
        exact Path.above_child _ _
      · exact hrest.trans (Path.above_child _ _)

theorem children_isEmpty_iff (ht : t.Sound) (he : t.entry? id = some e) :
    e.children.isEmpty = true ↔ ∀ below f, t.entry? below = some f → ¬e.path.Above f.path := by
  rw [Dict.isEmpty_iff]
  constructor
  · intro h below f hf habove
    obtain ⟨name, c, _, hc, _⟩ := ht.child_of_above he hf habove
    simp [h] at hc
  · intro h name
    cases hc : e.children.get? name with
    | none => rfl
    | some c =>
      obtain ⟨f, hf, _, hpath⟩ := ht.child he hc
      exact absurd (hpath ▸ Path.above_child _ _) (h c f hf)

end Sound

end Tree

end HomeTree
