import HomeTree.Proofs.Contents.Lineage
import HomeTree.Tree.Walk

namespace HomeTree

namespace Tree

/-- Visits of just the nodes whose paths are in a set, in the order of their paths. -/
structure Walks (t : Tree) (there : Path → Prop) (vs : List Visit) : Prop where
  entry : ∀ v ∈ vs, t.entry? v.id = some v.entry
  lineage : ∀ v ∈ vs, v.lineage.map Entry.summary = t.contents.lineage v.entry.path
  mem : ∀ q, q ∈ vs.map (fun v => v.entry.path) ↔ q ∈ t.contents ∧ there q
  sorted : (vs.map fun v => v.entry.path).Pairwise fun p q => p.components < q.components

namespace Walks

variable {t : Tree} {there rest : Path → Prop} {vs ws : List Visit}

theorem nothing (h : ∀ q ∈ t.contents, ¬there q) : Walks t there [] where
  entry := by simp
  lineage := by simp
  mem := fun q => ⟨fun hq => by simp at hq, fun hq => absurd hq.2 (h q hq.1)⟩
  sorted := List.Pairwise.nil

theorem congr (h : Walks t there vs) (hr : ∀ q ∈ t.contents, there q ↔ rest q) :
    Walks t rest vs :=
  ⟨h.entry, h.lineage, fun q => (h.mem q).trans (and_congr_right (hr q)), h.sorted⟩

theorem append (h : Walks t there vs) (h' : Walks t rest ws)
    (hlt : ∀ p q, there p → rest q → p.components < q.components) :
    Walks t (fun q => there q ∨ rest q) (vs ++ ws) where
  entry := by
    intro v hv
    rcases List.mem_append.mp hv with hv | hv
    · exact h.entry v hv
    · exact h'.entry v hv
  lineage := by
    intro v hv
    rcases List.mem_append.mp hv with hv | hv
    · exact h.lineage v hv
    · exact h'.lineage v hv
  mem := by
    intro q
    rw [List.map_append, List.mem_append, h.mem, h'.mem, and_or_left]
  sorted := by
    rw [List.map_append]
    refine List.pairwise_append.mpr ⟨h.sorted, h'.sorted, ?_⟩
    intro p hp q hq
    exact hlt p q ((h.mem p).mp hp).2 ((h'.mem q).mp hq).2

theorem single (ht : t.Sound) {id : NodeId} {e : Entry} (he : t.entry? id = some e)
    {lineage : List Entry} (h : lineage.map Entry.summary = t.contents.lineage e.path) :
    Walks t (fun q => q = e.path) [⟨id, e, lineage⟩] where
  entry := by simpa using he
  lineage := by simpa using h
  mem := by
    intro q
    simp only [List.map_cons, List.map_nil, List.mem_singleton]
    exact ⟨fun hq => ⟨hq ▸ ht.mem_contents he, hq⟩, fun hq => hq.2⟩
  sorted := List.pairwise_singleton _ _

end Walks

/-- Children that stand below one path are met in the order of their names, each with all that is
below it. -/
theorem visitsEach_walks {t : Tree} (ht : t.Sound) {depth : Nat} {p : Path}
    (ih : ∀ {above : List Entry} {id : NodeId} {e : Entry}, t.entry? id = some e →
      (above ++ [e]).map Entry.summary = t.contents.lineage e.path →
      (∀ q ∈ t.contents, e.path.Covers q → q.depth < e.path.depth + depth) →
      Walks t e.path.Covers (t.visitsBelow depth above id))
    {children : List (String × NodeId)} (sorted : children.Pairwise fun a b => a.1 < b.1)
    (hchildren : ∀ c ∈ children, ∃ f, t.entry? c.2 = some f ∧ f.path = p.child c.1)
    (hdepth : ∀ q ∈ t.contents, p.Covers q → q.depth < p.depth + (depth + 1))
    {lineage : List Entry} (hp : lineage.map Entry.summary = t.contents.lineage p) :
    Walks t (fun q => ∃ c ∈ children, (p.child c.1).Covers q)
      ((children.map Prod.snd).flatMap (t.visitsBelow depth lineage)) := by
  induction children with
  | nil => exact Walks.nothing fun q _ ⟨c, hc, _⟩ => by simp at hc
  | cons head rest ihr =>
    obtain ⟨name, id⟩ := head
    obtain ⟨hlt, sorted⟩ := List.pairwise_cons.mp sorted
    obtain ⟨e, he, hpath⟩ := hchildren (name, id) List.mem_cons_self
    simp only at he hpath
    have hlineage : (lineage ++ [e]).map Entry.summary = t.contents.lineage e.path := by
      have hsummary := ht.summary_eq he
      rw [hpath] at hsummary ⊢
      rw [List.map_append, hp, Contents.lineage_child, hsummary, Option.toList_some]
      rfl
    have first := ih he hlineage fun q hq hcovers => by
      rw [hpath] at hcovers ⊢
      have := hdepth q hq (Path.above_of_covers_child hcovers).covers
      rw [Path.depth_child]
      omega
    have later := ihr sorted fun c hc => hchildren c (List.mem_cons_of_mem _ hc)
    have all := first.append later fun q r hq ⟨c, hc, hr⟩ =>
      Path.components_lt_of_sibling (hlt c hc) (hpath ▸ hq) hr
    refine all.congr fun q _ => ?_
    simp only [hpath, List.exists_mem_cons_iff]

theorem visitsBelow_walks {t : Tree} (ht : t.Sound) {depth : Nat} {above : List Entry}
    {id : NodeId} {e : Entry} (he : t.entry? id = some e)
    (hlineage : (above ++ [e]).map Entry.summary = t.contents.lineage e.path)
    (hdepth : ∀ q ∈ t.contents, e.path.Covers q → q.depth < e.path.depth + depth) :
    Walks t e.path.Covers (t.visitsBelow depth above id) := by
  induction depth generalizing above id e with
  | zero =>
    have := hdepth e.path (ht.mem_contents he) (Path.covers_self _)
    omega
  | succ depth ih =>
    have below := visitsEach_walks ht ih e.children.ordered
      (fun c hc => ht.entry?_of_mem_children he hc) hdepth hlineage
    have all := (Walks.single ht he hlineage).append below fun q r hq ⟨c, _, hr⟩ =>
      hq ▸ (Path.above_of_covers_child hr).components_lt
    rw [visitsBelow, he]
    refine all.congr fun q hq => ?_
    rw [Path.covers_iff, ht.above_iff_children_cover he hq]

theorem Sound.visits_walks {t : Tree} (ht : t.Sound) :
    Walks t (fun _ => True) t.visits := by
  obtain ⟨e, he, hpath, _⟩ := ht.root
  have hlineage : ([] ++ [e]).map Entry.summary = t.contents.lineage e.path := by
    have hsummary := ht.summary_eq he
    rw [hpath] at hsummary ⊢
    rw [Contents.lineage_root, hsummary]
    rfl
  have walk := @visitsBelow_walks t ht t.slots.size _ _ _ he hlineage fun q hq _ => by
    obtain ⟨i, f, hf, rfl⟩ := ht.mem_contents_iff.mp hq
    have := ht.depth_lt_size hf
    omega
  refine walk.congr fun q _ => ?_
  rw [hpath]
  exact ⟨fun _ => trivial, fun _ => List.nil_prefix⟩

theorem Sound.paths_visits {t : Tree} (ht : t.Sound) :
    t.visits.map (fun v => v.entry.path) = t.contents.paths := by
  have walk := ht.visits_walks
  exact Contents.eq_paths walk.sorted fun p => (walk.mem p).trans (and_iff_left trivial)

end Tree

end HomeTree
