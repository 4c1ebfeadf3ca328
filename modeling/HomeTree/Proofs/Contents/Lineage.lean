import HomeTree.Proofs.Contents.Basic
import Mathlib.Data.List.Perm.Subperm

namespace HomeTree.Tree

def climb (t : Tree) : Nat → NodeId → Option NodeId
  | 0, id => some id
  | steps + 1, id => (t.entry? id >>= Entry.parent) >>= climb t steps

namespace Sound

variable {t : Tree} {id : NodeId} {e : Entry}

/-- The root is as many steps up as the path has names, and at no other distance. -/
theorem climb_eq_root_iff (ht : t.Sound) (he : t.entry? id = some e) (steps : Nat) :
    t.climb steps id = some rootId ↔ steps = e.path.depth := by
  generalize hp : e.path = p
  induction p using Path.childInduction generalizing id e steps with
  | root =>
    cases (ht.path_root_iff he).mp hp
    cases steps with
    | zero => simp [climb]
    | succ steps =>
      have hn : e.parent = none := (ht.parent_none_iff he).mpr rfl
      simp [climb, he, hn]
  | child p name ih =>
    have hr : id ≠ rootId := fun hr =>
      Path.child_ne_root p name (hp.symm.trans ((ht.path_root_iff he).mpr hr))
    cases steps with
    | zero => simp [climb, hr]
    | succ steps =>
      obtain ⟨above, f, other, hparent, hf, _, hpath⟩ := ht.parent_path he hr
      obtain ⟨hfp, _⟩ := Path.child_inj.mp (hp.symm.trans hpath)
      simp [climb, he, hparent, ih hf steps hfp.symm]

/-- The nodes from the root to a node take as many slots as its path has names, and one more. -/
theorem depth_lt_size (ht : t.Sound) (he : t.entry? id = some e) :
    e.path.depth < t.slots.size := by
  -- On the way up each depth has a node of its own, and each of these takes a slot.
  have step : ∀ k ≤ e.path.depth, ∃ i f, t.entry? i = some f ∧ f.path.depth = k := by
    intro k hk
    by_cases heq : k = e.path.depth
    · exact ⟨id, e, he, heq.symm⟩
    · have habove : (⟨e.path.components.take k⟩ : Path).Above e.path := by
        refine ⟨List.take_prefix _ _, fun h => ?_⟩
        have := congrArg Path.depth h
        simp only [Path.depth, List.length_take] at this hk heq
        omega
      obtain ⟨i, f, hf, hpath⟩ := ht.exists_above he habove
      refine ⟨i, f, hf, ?_⟩
      simp only [Path.depth] at hk
      simp [Path.depth, hpath, hk]
  choose at_ entry hentry hdepth using step
  let ids := (List.range (e.path.depth + 1)).pmap at_ fun k hk => by
    have := List.mem_range.mp hk
    omega
  have nodup : ids.Nodup := by
    refine List.Nodup.pmap (fun a ha b hb h => ?_) List.nodup_range
    have hentries := (hentry a ha).symm.trans (h ▸ hentry b hb)
    rw [← hdepth a ha, ← hdepth b hb, Option.some.inj hentries]
  have subset : ids ⊆ List.range t.slots.size := by
    intro i hi
    obtain ⟨k, hk, rfl⟩ := List.mem_pmap.mp hi
    exact List.mem_range.mpr (lt_size_of_living (hentry k _))
  have hlength := (List.subperm_of_subset nodup subset).length_le
  simp only [ids, List.length_pmap, List.length_range] at hlength
  omega

theorem summary_eq (ht : t.Sound) (he : t.entry? id = some e) :
    t.contents.summary? e.path = some e.summary := by
  rw [Contents.summary?, ht.lookup_contents he]
  rfl

theorem reverse_ascent (ht : t.Sound) (he : t.entry? id = some e) {steps : Nat}
    (h : e.path.depth < steps) : (t.ascent steps id).reverse = t.contents.lineage e.path := by
  generalize hp : e.path = p at h
  induction p using Path.childInduction generalizing id e steps with
  | root =>
    cases (ht.path_root_iff he).mp hp
    obtain ⟨steps, rfl⟩ : ∃ n, steps = n + 1 := ⟨steps - 1, by omega⟩
    have hn : e.parent = none := (ht.parent_none_iff he).mpr rfl
    rw [Contents.lineage_root, ← hp, ht.summary_eq he]
    simp [ascent, he, hn]
  | child p name ih =>
    have hr : id ≠ rootId := fun hr =>
      Path.child_ne_root p name (hp.symm.trans ((ht.path_root_iff he).mpr hr))
    obtain ⟨above, f, other, hparent, hf, _, hpath⟩ := ht.parent_path he hr
    obtain ⟨hfp, _⟩ := Path.child_inj.mp (hp.symm.trans hpath)
    rw [Path.depth_child] at h
    obtain ⟨steps, rfl⟩ : ∃ n, steps = n + 1 := ⟨steps - 1, by omega⟩
    have hup := ih hf hfp.symm (show p.depth < steps by omega)
    rw [Contents.lineage_child, ← hp, ht.summary_eq he, ← hup]
    simp [ascent, he, hparent]

theorem lineage_eq (ht : t.Sound) (he : t.entry? id = some e) :
    t.lineage id = t.contents.lineage e.path :=
  ht.reverse_ascent he (ht.depth_lt_size he)

end Sound

end HomeTree.Tree
