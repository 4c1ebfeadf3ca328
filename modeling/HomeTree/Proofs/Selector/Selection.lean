import HomeTree.Proofs.Contents.Walk
import HomeTree.Proofs.Selector.Facet
import HomeTree.Proofs.Tree.Reachable
import HomeTree.Subscription.Target

namespace HomeTree.Tree

/-- A selector picks the node at a path. -/
def Picks (t : Tree) (s : Selector) (p : Path) : Prop :=
  ∃ id ∈ t.select s, t.lookup? p = some id

/-- The path of one node stands before the path of another. -/
def Precedes (t : Tree) (id other : NodeId) : Prop :=
  ∃ e f, t.entry? id = some e ∧ t.entry? other = some f ∧ e.path.components < f.path.components

namespace Sound

variable {t : Tree}

theorem mem_select_iff (ht : t.Sound) (s : Selector) (id : NodeId) :
    id ∈ t.select s ↔ t.contains id = true ∧ s.accepts (t.lineage id) = true := by
  have walk := ht.visits_walks
  simp only [select, List.mem_map, List.mem_filter]
  constructor
  · rintro ⟨v, ⟨hv, haccepts⟩, rfl⟩
    have hentry := walk.entry v hv
    rw [← s.accepts_map Entry.shows_summary, walk.lineage v hv, ← ht.lineage_eq hentry] at haccepts
    exact ⟨by rw [contains, hentry, Option.isSome_some], haccepts⟩
  · rintro ⟨hlive, haccepts⟩
    obtain ⟨e, he⟩ := Option.isSome_iff_exists.mp hlive
    obtain ⟨v, hv, hpath⟩ := List.mem_map.mp ((walk.mem e.path).mpr ⟨ht.mem_contents he, trivial⟩)
    have hid := ht.path_injective (walk.entry v hv) he hpath
    rw [ht.lineage_eq he, ← hpath, ← walk.lineage v hv,
      s.accepts_map Entry.shows_summary] at haccepts
    exact ⟨v, ⟨hv, haccepts⟩, hid⟩

theorem select_pairwise (ht : t.Sound) (s : Selector) : (t.select s).Pairwise t.Precedes := by
  have walk := ht.visits_walks
  have sorted := List.pairwise_map.mp walk.sorted
  refine List.pairwise_map.mpr ((sorted.filter _).imp_of_mem ?_)
  intro v w hv hw hlt
  have hv' := walk.entry v (List.mem_filter.mp hv).1
  have hw' := walk.entry w (List.mem_filter.mp hw).1
  exact ⟨v.entry, w.entry, hv', hw', hlt⟩

theorem select_nodup (ht : t.Sound) (s : Selector) : (t.select s).Nodup := by
  refine (ht.select_pairwise s).imp ?_
  rintro id other ⟨e, f, he, hf, hlt⟩ rfl
  cases Option.some.inj (he.symm.trans hf)
  exact lt_irrefl _ hlt

theorem picks_iff (ht : t.Sound) (s : Selector) {p : Path} (hp : p ∈ t.contents) :
    t.Picks s p ↔ s.accepts (t.contents.lineage p) = true := by
  obtain ⟨id, e, he, rfl⟩ := ht.mem_contents_iff.mp hp
  have hlookup := ht.lookup?_path he
  have hlive : t.contains id = true := by rw [contains, he, Option.isSome_some]
  rw [← ht.lineage_eq he]
  constructor
  · rintro ⟨other, hother, h⟩
    cases Option.some.inj (hlookup.symm.trans h)
    exact ((ht.mem_select_iff s id).mp hother).2
  · intro h
    exact ⟨id, (ht.mem_select_iff s id).mpr ⟨hlive, h⟩, hlookup⟩

end Sound

/-- Of the trees around a change, the one that has the changed node for certain. -/
def witnessing (c : Change) (before after : Tree) : Tree :=
  match c.event with
  | .removed => before
  | _ => after

theorem Step.accepts_iff {t u : Tree} {c : Change} (h : Step t c u) (ht : t.Sound)
    (s : Selector) :
    (Target.selector s).accepts c = true ↔ (witnessing c t u).Picks s c.path := by
  obtain ⟨hafter, hlineage⟩ := h.after?_eq ht
  show s.accepts c.lineage = true ↔ _
  rcases Contents.after?_eq_some hafter with ⟨hc, hp, _⟩ | ⟨hc, _, content, hu⟩
  · rw [hlineage, Contents.recordedLineage, witnessing, hc, ht.picks_iff s hp]
  · have hp : c.path ∈ u.contents := hu ▸ Finmap.mem_insert.mpr (Or.inl rfl)
    have hpicks := (h.sound ht).picks_iff s hp
    cases hevent : c.event with
    | removed => exact absurd hevent hc
    | created | attributeSet | styleSet =>
      simp only [hlineage, Contents.recordedLineage, witnessing, hevent, hpicks]

/-- Changes one after the other, each of which a selector accepts just when it picks the node. -/
inductive Recognized (s : Selector) : Tree → List Change → Tree → Prop
  | refl {t : Tree} : Recognized s t [] t
  | step {t u v : Tree} {c : Change} {cs : List Change} :
      Step t c u →
      ((Target.selector s).accepts c = true ↔ (witnessing c t u).Picks s c.path) →
      Recognized s u cs v → Recognized s t (c :: cs) v

theorem Steps.recognized {t u : Tree} {cs : List Change} (h : Steps t cs u) (ht : t.Sound)
    (s : Selector) : Recognized s t cs u := by
  induction h with
  | refl => exact .refl
  | step first _ ih => exact .step first (first.accepts_iff ht s) (ih (first.sound ht))

/-- All that can change a tree, by paths, by the numbers of nodes, or by a plan. -/
inductive Edit where
  | create (parent name kind : String)
  | remove (parent name : String)
  | insert (parent : NodeId) (d : Descriptor)
  | setAttribute (id : NodeId) (name value : String)
  | setStyle (id : NodeId) (name value : String)
  | prune (id : NodeId)
  | execute (plan : Plan)

def edit (t : Tree) : Edit → Tree × List Change
  | .create parent name kind => made (t.createChild parent name kind)
  | .remove parent name => made (t.removeChild parent name)
  | .insert parent d => made (t.insertChild parent d)
  | .setAttribute id name value => made (t.setAttribute id name value)
  | .setStyle id name value => made (t.setStyle id name value)
  | .prune id => t.prune id
  | .execute plan => ((plan.execute t).tree, (plan.execute t).changes)

theorem Sound.edit_steps {t : Tree} (ht : t.Sound) (edit : Edit) :
    Steps t (t.edit edit).2 (t.edit edit).1 := by
  cases edit with
  | create parent name kind => exact t.createChild_steps parent name kind
  | remove parent name => exact removeChild_steps ht parent name
  | insert parent d => exact made_steps (insertChild_failsEarly parent d) .insertChild
  | setAttribute id name value =>
    exact made_steps (setAttribute_failsEarly id name value) .setAttribute
  | setStyle id name value => exact made_steps (setStyle_failsEarly id name value) .setStyle
  | prune id => exact ht.prune_steps id
  | execute plan => exact plan.execute_steps ht

/-- The tree after edits, beginning with the root alone. -/
def built (edits : List Edit) : Tree :=
  edits.foldl (fun t e => (t.edit e).1) new

theorem built_sound (edits : List Edit) : (built edits).Sound := by
  have from_sound : ∀ (edits : List Edit) {t : Tree}, t.Sound →
      (edits.foldl (fun t e => (t.edit e).1) t).Sound := by
    intro edits
    induction edits with
    | nil => exact fun ht => ht
    | cons first rest ih => exact fun ht => ih ((ht.edit_steps first).sound ht)
  exact from_sound edits sound_new

/-- Queries and subscriptions agree on what a selector matches: it picks the living nodes whose
lineage it accepts, in the order of their paths, and it accepts a change just when it picks the
changed node. -/
theorem select_agrees_with_accepts (past : List Edit) (s : Selector) :
    let t := built past
    (∀ id, id ∈ t.select s ↔ t.contains id = true ∧ s.accepts (t.lineage id) = true) ∧
    (t.select s).Nodup ∧
    (t.select s).Pairwise t.Precedes ∧
    ∀ edit, Recognized s t (t.edit edit).2 (t.edit edit).1 := by
  intro t
  have ht : t.Sound := built_sound past
  exact ⟨ht.mem_select_iff s, ht.select_nodup s, ht.select_pairwise s,
    fun edit => (ht.edit_steps edit).recognized ht s⟩

end HomeTree.Tree
