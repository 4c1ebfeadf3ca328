import HomeTree.Proofs.Contents.Lineage
import HomeTree.Proofs.Tree.Step

namespace HomeTree

namespace Contents

/-- No path of the map lies below a path. -/
def Childless (m : Contents) (p : Path) : Prop :=
  ∀ q ∈ m.keys, ¬p.Above q

instance (m : Contents) (p : Path) : Decidable (m.Childless p) :=
  inferInstanceAs (Decidable (∀ q ∈ m.keys, ¬p.Above q))

theorem childless_iff {m : Contents} {p : Path} : m.Childless p ↔ ∀ q ∈ m, ¬p.Above q := by
  simp [Childless, Finmap.mem_keys]

/-- The contents after a recorded change. A record applies only where it makes sense: what is
created must be missing below a path that is there, what is removed must be there without anything
below it, and texts are written on what is there. -/
def after? (m : Contents) (c : Change) : Option Contents :=
  match c.event with
  | .created kind => do
    let parent ← c.path.parent?
    let last ← c.lineage.getLast?
    if parent ∈ m ∧ c.path ∉ m then some (m.insert c.path ⟨kind, last.attributes, ∅⟩) else none
  | .removed => if c.path ∈ m ∧ m.Childless c.path then some (m.erase c.path) else none
  | .attributeSet name value => do
    let content ← m.lookup c.path
    return m.insert c.path { content with attributes := content.attributes.insert name value }
  | .styleSet name value => do
    let content ← m.lookup c.path
    return m.insert c.path { content with style := content.style.insert name value }

/-- A record that applies takes its path out, or puts something there. -/
theorem after?_eq_some {m n : Contents} {c : Change} (h : m.after? c = some n) :
    (c.event = .removed ∧ c.path ∈ m ∧ n = m.erase c.path) ∨
      (c.event ≠ .removed ∧ (∀ kind, c.event = .created kind → c.path ∉ m) ∧
        ∃ content, n = m.insert c.path content) := by
  cases hevent : c.event with
  | created kind =>
    simp only [after?, hevent, Option.bind_eq_bind, Option.bind_eq_some_iff] at h
    obtain ⟨_, _, _, _, h⟩ := h
    split at h
    next hmem => exact Or.inr ⟨by simp, fun _ _ => hmem.2, _, (Option.some.inj h).symm⟩
    next => cases h
  | removed =>
    simp only [after?, hevent] at h
    split at h
    next hmem => exact Or.inl ⟨rfl, hmem.1, (Option.some.inj h).symm⟩
    next => cases h
  | attributeSet name value =>
    simp only [after?, hevent, Option.bind_eq_bind, Option.bind_eq_some_iff] at h
    obtain ⟨_, _, h⟩ := h
    exact Or.inr ⟨by simp, by simp, _, (Option.some.inj h).symm⟩
  | styleSet name value =>
    simp only [after?, hevent, Option.bind_eq_bind, Option.bind_eq_some_iff] at h
    obtain ⟨_, _, h⟩ := h
    exact Or.inr ⟨by simp, by simp, _, (Option.some.inj h).symm⟩

theorem not_mem_of_created {m n : Contents} {c : Change} {kind : String} (h : m.after? c = some n)
    (hc : c.event = .created kind) : c.path ∉ m := by
  rcases after?_eq_some h with ⟨hremoved, _⟩ | ⟨_, hfresh, _⟩
  · rw [hc] at hremoved
    cases hremoved
  · exact hfresh kind hc

theorem mem_after {m n : Contents} {c : Change} {p : Path} (h : m.after? c = some n)
    (hc : c.event ≠ .removed) (hp : p ∈ m) : p ∈ n := by
  rcases after?_eq_some h with ⟨hremoved, _⟩ | ⟨_, _, content, rfl⟩
  · exact absurd hremoved hc
  · exact Finmap.mem_insert.mpr (Or.inr hp)

/-- The lineage that a record has to carry: of a removed path before the change, else after it. -/
def recordedLineage (before after : Contents) (c : Change) : List Summary :=
  match c.event with
  | .removed => before.lineage c.path
  | _ => after.lineage c.path

/-- Records that all apply, one after the other, and carry the lineages of their time. -/
inductive Replays : Contents → List Change → Contents → Prop
  | nil {m : Contents} : Replays m [] m
  | cons {m n k : Contents} {c : Change} {cs : List Change} :
      m.after? c = some n → c.lineage = recordedLineage m n c → Replays n cs k →
      Replays m (c :: cs) k

end Contents

namespace Tree.Sound

variable {t : Tree} {id : NodeId} {e : Entry}

/-- A node has a child of a name when the path of the child is there. -/
theorem child_mem_contents_iff (ht : t.Sound) (he : t.entry? id = some e) {name : String} :
    e.path.child name ∈ t.contents ↔ ∃ c, e.children.get? name = some c := by
  constructor
  · intro h
    obtain ⟨c, f, hf, hpath⟩ := ht.mem_contents_iff.mp h
    have hr : c ≠ rootId := fun hr =>
      Path.child_ne_root e.path name (hpath.symm.trans ((ht.path_root_iff hf).mpr hr))
    obtain ⟨p, g, other, _, hg, hc, hgpath⟩ := ht.parent_path hf hr
    obtain ⟨hep, rfl⟩ := Path.child_inj.mp (hpath.symm.trans hgpath)
    cases ht.path_injective he hg hep
    cases Option.some.inj (he.symm.trans hg)
    exact ⟨c, hc⟩
  · rintro ⟨c, hc⟩
    obtain ⟨f, hf, _, hpath⟩ := ht.child he hc
    exact ht.mem_contents_iff.mpr ⟨c, f, hf, hpath⟩

theorem childless_contents_iff (ht : t.Sound) (he : t.entry? id = some e) :
    t.contents.Childless e.path ↔ e.children.isEmpty = true := by
  rw [Contents.childless_iff, ht.children_isEmpty_iff he]
  constructor
  · exact fun h below f hf => h f.path (ht.mem_contents hf)
  · intro h q hq
    obtain ⟨below, f, hf, rfl⟩ := ht.mem_contents_iff.mp hq
    exact h below f hf

/-- Two trees hold the same at a path where each slot has it with the same content or not at all. -/
theorem lookup_contents_congr (ht : t.Sound) {u : Tree} (hu : u.Sound) {q : Path}
    (h : ∀ i c, (∃ g, u.entry? i = some g ∧ g.path = q ∧ g.content = c) ↔
      ∃ f, t.entry? i = some f ∧ f.path = q ∧ f.content = c) :
    u.contents.lookup q = t.contents.lookup q := by
  apply Option.ext
  intro c
  rw [hu.lookup_contents_iff, ht.lookup_contents_iff]
  exact exists_congr fun i => h i c

theorem contents_attach (ht : t.Sound) (he : t.entry? id = some e) {name : String} {child : Entry}
    (hu : (t.attach id name child).Sound) :
    (t.attach id name child).contents = t.contents.insert child.path child.content := by
  apply Finmap.ext_lookup
  intro q
  by_cases hq : q = child.path
  · rw [hq, Finmap.lookup_insert]
    exact hu.lookup_contents (ht.entry?_attach_new he name child)
  · rw [Finmap.lookup_insert_of_ne _ hq]
    refine ht.lookup_contents_congr hu fun i c => ?_
    rw [ht.entry?_attach he]
    by_cases hi : i = (t.allocate child).2
    · simp [hi, (ht.entry?_allocate child).1, Ne.symm hq]
    · simp [hi, Entry.content]

theorem contents_update (ht : t.Sound) (he : t.entry? id = some e) {f : Entry → Entry}
    (hpath : (f e).path = e.path) (hu : (t.update id f).Sound) :
    (t.update id f).contents = t.contents.insert e.path (f e).content := by
  apply Finmap.ext_lookup
  intro q
  by_cases hq : q = e.path
  · have hlookup := hu.lookup_contents (entry?_update_old f he)
    rw [if_pos rfl, hpath] at hlookup
    rw [hq, Finmap.lookup_insert, hlookup]
  · rw [Finmap.lookup_insert_of_ne _ hq]
    refine ht.lookup_contents_congr hu fun i c => ?_
    rw [entry?_update]
    by_cases hi : i = id
    · simp [hi, he, hpath, Ne.symm hq]
    · simp [hi]

theorem contents_detach (ht : t.Sound) (he : t.entry? id = some e) (hr : id ≠ rootId)
    (hu : (t.detach id).1.Sound) : (t.detach id).1.contents = t.contents.erase e.path := by
  obtain ⟨p, f, name, hp, hf, hc, _⟩ := ht.parent_path he hr
  apply Finmap.ext_lookup
  intro q
  by_cases hq : q = e.path
  · rw [hq, Finmap.lookup_erase, Finmap.lookup_eq_none, hu.mem_contents_iff]
    rintro ⟨i, g, hg, hpath⟩
    obtain ⟨hne, k, hk, rfl⟩ := ht.cases_of_entry?_detach he hp hf hc hg
    exact absurd (ht.path_injective hk he hpath) hne
  · rw [Finmap.lookup_erase_ne hq]
    refine ht.lookup_contents_congr hu fun i c => ?_
    rw [ht.entry?_detach he hp hf hc]
    by_cases hi : i = id
    · simp [hi, he, Ne.symm hq]
    · simp [hi, Entry.content]

theorem contents_insertChild (ht : t.Sound) {u : Tree} {d : Descriptor} {c : Change}
    (he : t.entry? id = some e) (h : t.insertChild id d = .ok c u) :
    e.path.child d.name ∉ t.contents ∧
      u.contents = t.contents.insert (e.path.child d.name) ⟨d.kind, d.attributes, ∅⟩ ∧
      c = ⟨e.path.child d.name, .created d.kind, u.contents.lineage (e.path.child d.name)⟩ := by
  have hu := (Step.insertChild h).sound ht
  obtain ⟨e', he', _, _, _, hfree, rfl, rfl⟩ := insertChild_eq_ok h
  cases Option.some.inj (he.symm.trans he')
  refine ⟨?_, ht.contents_attach he hu, ?_⟩
  · rw [ht.child_mem_contents_iff he, hfree]
    rintro ⟨c, hc⟩
    cases hc
  · rw [hu.lineage_eq (ht.entry?_attach_new he d.name (newEntry e.path d id))]
    rfl

theorem contents_setAttribute (ht : t.Sound) {u : Tree} {name value : String} {c : Change}
    (he : t.entry? id = some e) (h : t.setAttribute id name value = .ok c u) :
    u.contents = t.contents.insert e.path
        { e.content with attributes := e.attributes.insert name value } ∧
      c = ⟨e.path, .attributeSet name value, u.contents.lineage e.path⟩ := by
  have hu := (Step.setAttribute h).sound ht
  obtain ⟨e', he', _, rfl, rfl⟩ := setAttribute_eq_ok h
  cases Option.some.inj (he.symm.trans he')
  refine ⟨ht.contents_update he rfl hu, ?_⟩
  rw [hu.lineage_eq (by rw [entry?_update, if_pos rfl, he, Option.map_some])]

theorem contents_setStyle (ht : t.Sound) {u : Tree} {name value : String} {c : Change}
    (he : t.entry? id = some e) (h : t.setStyle id name value = .ok c u) :
    u.contents = t.contents.insert e.path
        { e.content with style := e.style.insert name value } ∧
      c = ⟨e.path, .styleSet name value, u.contents.lineage e.path⟩ := by
  have hu := (Step.setStyle h).sound ht
  obtain ⟨e', he', rfl, rfl⟩ := setStyle_eq_ok h
  cases Option.some.inj (he.symm.trans he')
  refine ⟨ht.contents_update he rfl hu, ?_⟩
  rw [hu.lineage_eq (by rw [entry?_update, if_pos rfl, he, Option.map_some])]

theorem change_detach (ht : t.Sound) (he : t.entry? id = some e) :
    (t.detach id).2 = ⟨e.path, .removed, t.contents.lineage e.path⟩ := by
  simp only [Tree.detach, he, ht.lineage_eq he]

end Tree.Sound

open Contents in
/-- A step records just what it does to the contents. -/
theorem Tree.Step.after?_eq {t u : Tree} {c : Change} (h : Step t c u) (ht : t.Sound) :
    t.contents.after? c = some u.contents ∧
      c.lineage = recordedLineage t.contents u.contents c := by
  cases h with
  | @insertChild _ _ parent d h =>
    obtain ⟨e, he, _⟩ := insertChild_eq_ok h
    obtain ⟨hfresh, hcontents, rfl⟩ := ht.contents_insertChild he h
    refine ⟨?_, rfl⟩
    have hlookup : u.contents.lookup (e.path.child d.name) = some ⟨d.kind, d.attributes, ∅⟩ := by
      rw [hcontents, Finmap.lookup_insert]
    simp [after?, getLast?_lineage hlookup, ht.mem_contents he, hfresh, ← hcontents]
  | setAttribute h =>
    obtain ⟨e, he, _⟩ := setAttribute_eq_ok h
    obtain ⟨hcontents, rfl⟩ := ht.contents_setAttribute he h
    refine ⟨?_, rfl⟩
    simp [after?, ht.lookup_contents he, hcontents, Entry.content]
  | setStyle h =>
    obtain ⟨e, he, _⟩ := setStyle_eq_ok h
    obtain ⟨hcontents, rfl⟩ := ht.contents_setStyle he h
    refine ⟨?_, rfl⟩
    simp [after?, ht.lookup_contents he, hcontents, Entry.content]
  | @detach id e he hr hchildless =>
    rw [ht.change_detach he, ht.contents_detach he hr (ht.detach he hr hchildless)]
    refine ⟨?_, rfl⟩
    simp [after?, ht.mem_contents he, (ht.childless_contents_iff he).mpr hchildless]

theorem Tree.Step.length_lineage {t u : Tree} {c : Change} (h : Step t c u) (ht : t.Sound) :
    c.lineage.length = c.path.depth + 1 := by
  obtain ⟨hafter, hlineage⟩ := h.after?_eq ht
  rcases Contents.after?_eq_some hafter with ⟨hc, hp, _⟩ | ⟨hc, _, content, hu⟩
  · rw [hlineage, Contents.recordedLineage, hc]
    exact Contents.length_lineage ht.prefixClosed_contents hp
  · have hp : c.path ∈ u.contents := hu ▸ Finmap.mem_insert.mpr (Or.inl rfl)
    rw [hlineage, Contents.recordedLineage]
    split
    next hremoved => exact absurd hremoved hc
    next => exact Contents.length_lineage (h.sound ht).prefixClosed_contents hp

/-- A node keeps its slot as long as its path is there. -/
theorem Tree.Step.entry?_after {t u : Tree} {c : Change} (h : Step t c u) (ht : t.Sound)
    {id : NodeId} {e : Entry} (he : t.entry? id = some e) (hp : e.path ∈ u.contents) :
    ∃ f, u.entry? id = some f ∧ f.path = e.path := by
  obtain ⟨i, f, hf, hpath⟩ := (h.sound ht).mem_contents_iff.mp hp
  rcases h.entry?_before ht hf with ⟨g, hg, hgf⟩ | ⟨_, kind, hevent, hcf⟩
  · cases ht.path_injective he hg (hgf.trans hpath).symm
    exact ⟨f, hf, hpath⟩
  · have hfresh := Contents.not_mem_of_created (h.after?_eq ht).1 hevent
    exact absurd (ht.mem_contents he) (hpath ▸ hcf ▸ hfresh)

theorem Tree.Steps.length_lineage {t u : Tree} {cs : List Change} (h : Steps t cs u)
    (ht : t.Sound) : ∀ c ∈ cs, c.lineage.length = c.path.depth + 1 := by
  induction h with
  | refl => simp
  | step first _ ih =>
    intro c hc
    rcases List.mem_cons.mp hc with rfl | hc
    · exact first.length_lineage ht
    · exact ih (first.sound ht) c hc

theorem Tree.Steps.replays {t u : Tree} {cs : List Change} (h : Steps t cs u) (ht : t.Sound) :
    Contents.Replays t.contents cs u.contents := by
  induction h with
  | refl => exact .nil
  | step first _ ih =>
    obtain ⟨hafter, hlineage⟩ := first.after?_eq ht
    exact .cons hafter hlineage (ih (first.sound ht))

end HomeTree
