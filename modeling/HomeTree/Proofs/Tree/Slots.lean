import HomeTree.Tree.Basic
import HomeTree.Proofs.Dict

namespace HomeTree.Tree

theorem entry?_eq_some_iff {t : Tree} {id : NodeId} {e : Entry} :
    t.entry? id = some e ↔ t.slots[id]? = some (some e) := by
  simp [Tree.entry?, Option.join_eq_some_iff]

theorem living_eq_ok_iff {t : Tree} {id : NodeId} {e : Entry} :
    t.living id = .ok e ↔ t.entry? id = some e := by
  rw [living]
  cases t.entry? id <;> simp

theorem lt_size_of_living {t : Tree} {id : NodeId} {e : Entry} (h : t.entry? id = some e) :
    id < t.slots.size := by
  obtain ⟨hlt, _⟩ := Array.getElem?_eq_some_iff.mp (entry?_eq_some_iff.mp h)
  exact hlt

theorem entry?_setIfInBounds (t : Tree) (id other : NodeId) (o : Option Entry)
    (free : List NodeId) (live : Nat) (h : id < t.slots.size) :
    Tree.entry? (Tree.mk (t.slots.setIfInBounds id o) free live) other =
      if other = id then o else t.entry? other := by
  by_cases hid : other = id
  · subst other
    simp [Tree.entry?, h]
  · simp [Tree.entry?, Ne.symm hid, hid]

theorem update_of_living {t : Tree} {id : NodeId} {e : Entry} (h : t.entry? id = some e)
    (f : Entry → Entry) :
    t.update id f = { t with slots := t.slots.setIfInBounds id (some (f e)) } := by
  simp [update, h]

theorem entry?_update (t : Tree) (id other : NodeId) (f : Entry → Entry) :
    Tree.entry? (t.update id f) other =
      if other = id then (t.entry? id).map f else t.entry? other := by
  cases h : t.entry? id with
  | none =>
    simp only [update, h, Option.map_none]
    split
    next eq => rw [eq, h]
    next => rfl
  | some e =>
    rw [update_of_living h, entry?_setIfInBounds t id other _ _ _ (lt_size_of_living h)]
    rfl

theorem entry?_update_old {t : Tree} {id other : NodeId} {e : Entry} (f : Entry → Entry)
    (he : t.entry? other = some e) :
    Tree.entry? (t.update id f) other = some (if other = id then f e else e) := by
  rw [entry?_update]
  by_cases h : other = id
  · subst other
    simp [he]
  · simp [h, he]

theorem cases_of_entry?_update {t : Tree} {id other : NodeId} {f : Entry → Entry} {g : Entry}
    (hg : Tree.entry? (t.update id f) other = some g) :
    ∃ e, t.entry? other = some e ∧ g = if other = id then f e else e := by
  rw [entry?_update] at hg
  by_cases h : other = id
  · rw [if_pos h] at hg
    obtain ⟨e, he, rfl⟩ := Option.map_eq_some_iff.mp hg
    exact ⟨e, h ▸ he, (if_pos h).symm⟩
  · rw [if_neg h] at hg
    exact ⟨g, hg, (if_neg h).symm⟩

@[simp] theorem free_update (t : Tree) (id : NodeId) (f : Entry → Entry) :
    (t.update id f).free = t.free := by
  unfold update
  split <;> rfl

@[simp] theorem live_update (t : Tree) (id : NodeId) (f : Entry → Entry) :
    (t.update id f).live = t.live := by
  unfold update
  split <;> rfl

@[simp] theorem size_slots_update (t : Tree) (id : NodeId) (f : Entry → Entry) :
    (t.update id f).slots.size = t.slots.size := by
  unfold update
  split <;> simp

def occupied (t : Tree) : Nat :=
  t.slots.countP Option.isSome

theorem occupied_setIfInBounds {t : Tree} {id : NodeId} (o : Option Entry) (free : List NodeId)
    (live : Nat) (h : id < t.slots.size) :
    (Tree.mk (t.slots.setIfInBounds id o) free live).occupied + (t.entry? id).toList.length =
      t.occupied + o.toList.length := by
  have hs : t.slots.setIfInBounds id o = t.slots.set id o := Array.setIfInBounds_def .. ▸ dif_pos h
  have hle : (if (t.slots[id]).isSome = true then 1 else 0) ≤ t.slots.countP Option.isSome := by
    split
    next live =>
      exact Array.countP_pos_iff.mpr ⟨t.slots[id], Array.getElem_mem h, live⟩
    next => exact Nat.zero_le _
  have he : t.entry? id = t.slots[id] := by simp [Tree.entry?, h]
  simp only [occupied, hs, Array.countP_set h, he]
  generalize t.slots[id] = before at hle
  cases before <;> cases o <;>
    simp only [Option.isSome, Option.toList, List.length, Bool.false_eq_true, if_true, if_false]
      at hle ⊢ <;>
    omega

theorem occupied_update (t : Tree) (id : NodeId) (f : Entry → Entry) :
    (t.update id f).occupied = t.occupied := by
  cases h : t.entry? id with
  | none => simp [update, h]
  | some e =>
    have := occupied_setIfInBounds (some (f e)) t.free t.live (lt_size_of_living h)
    rw [update_of_living h]
    simpa [h] using this

/-- The free list and the count of nodes fit the slots. -/
structure Counted (t : Tree) : Prop where
  free_nodup : t.free.Nodup
  mem_free : ∀ {id}, id ∈ t.free ↔ id < t.slots.size ∧ t.entry? id = none
  live : t.live = t.occupied

theorem Counted.update {t : Tree} (ht : t.Counted) (id : NodeId) (f : Entry → Entry) :
    (t.update id f).Counted where
  free_nodup := by simpa using ht.free_nodup
  mem_free := by
    intro other
    rw [free_update, ht.mem_free, size_slots_update, entry?_update]
    split
    next h => simp [h]
    next => rfl
  live := by rw [live_update, occupied_update, ht.live]

theorem allocate_of_free {t : Tree} {slot : NodeId} {free : List NodeId}
    (h : t.free = slot :: free) (e : Entry) :
    t.allocate e = (⟨t.slots.setIfInBounds slot (some e), free, t.live + 1⟩, slot) := by
  simp [allocate, h]

theorem allocate_of_full {t : Tree} (h : t.free = []) (e : Entry) :
    t.allocate e = (⟨t.slots.push (some e), [], t.live + 1⟩, t.slots.size) := by
  simp [allocate, h]

/-- A new entry takes a slot that held none, and leaves the other slots alone. -/
theorem Counted.entry?_allocate {t : Tree} (ht : t.Counted) (e : Entry) :
    t.entry? (t.allocate e).2 = none ∧ ∀ other,
      Tree.entry? (t.allocate e).1 other =
        if other = (t.allocate e).2 then some e else t.entry? other := by
  cases hfree : t.free with
  | cons slot free =>
    obtain ⟨hlt, hnone⟩ := ht.mem_free.mp (hfree ▸ List.mem_cons_self)
    rw [allocate_of_free hfree]
    exact ⟨hnone, fun other => entry?_setIfInBounds t slot other _ _ _ hlt⟩
  | nil =>
    rw [allocate_of_full hfree]
    refine ⟨by simp [Tree.entry?], fun other => ?_⟩
    by_cases h : other = t.slots.size
    · simp [Tree.entry?, h]
    · simp [Tree.entry?, Array.getElem?_push, h]

theorem Counted.allocate {t : Tree} (ht : t.Counted) (e : Entry) : (t.allocate e).1.Counted := by
  have hentry := (ht.entry?_allocate e).2
  cases hfree : t.free with
  | cons slot free =>
    obtain ⟨hlt, hnone⟩ := ht.mem_free.mp (hfree ▸ List.mem_cons_self)
    obtain ⟨hslot, hnodup⟩ := List.nodup_cons.mp (hfree ▸ ht.free_nodup)
    rw [allocate_of_free hfree] at hentry ⊢
    refine ⟨hnodup, ?_, ?_⟩
    · intro other
      have hmem : other ∈ t.free ↔ other < t.slots.size ∧ t.entry? other = none := ht.mem_free
      rw [hfree, List.mem_cons] at hmem
      rw [hentry]
      by_cases h : other = slot
      · subst other
        simp [hslot]
      · simpa [h] using hmem
    · have := occupied_setIfInBounds (some e) free (t.live + 1) hlt
      simp only [hnone, Option.toList, List.length, ← ht.live] at this
      exact this.symm
  | nil =>
    rw [allocate_of_full hfree] at hentry ⊢
    refine ⟨List.nodup_nil, ?_, ?_⟩
    · intro other
      have hmem : other ∈ t.free ↔ other < t.slots.size ∧ t.entry? other = none := ht.mem_free
      rw [hentry]
      simp only [hfree, List.not_mem_nil, false_iff, not_and, Array.size_push] at hmem ⊢
      intro hlt
      by_cases h : other = t.slots.size
      · simp [h]
      · simpa [h] using hmem (Nat.lt_of_le_of_ne (Nat.le_of_lt_succ hlt) h)
    · simp [occupied, ht.live]

/-- A released slot is free and holds no node. -/
theorem Counted.release {t : Tree} (ht : t.Counted) {id : NodeId} {e : Entry}
    (he : t.entry? id = some e) :
    (Tree.mk (t.slots.setIfInBounds id none) (id :: t.free) (t.live - 1)).Counted := by
  have hlt := lt_size_of_living he
  refine ⟨?_, ?_, ?_⟩
  · apply List.nodup_cons.mpr
    refine ⟨fun hm => ?_, ht.free_nodup⟩
    have := (ht.mem_free.mp hm).2
    simp [he] at this
  · intro other
    rw [entry?_setIfInBounds t id other _ _ _ hlt, List.mem_cons, ht.mem_free]
    by_cases h : other = id
    · subst other
      simp [hlt]
    · simp [h]
  · have := occupied_setIfInBounds none (id :: t.free) (t.live - 1) hlt
    simp only [he, Option.toList, List.length] at this
    have hlive := ht.live
    change t.live - 1 = _
    omega

end HomeTree.Tree
