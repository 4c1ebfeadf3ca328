import HomeTree.Proofs.Query.Simulation

namespace HomeTree

open List (Forall₂)

theorem forall₂_eraseDups {α β : Type} [DecidableEq α] [DecidableEq β] {R : α → β → Prop}
    (hR : Relator.BiUnique R) {l : List α} {k : List β} (h : Forall₂ R l k) :
    Forall₂ R l.eraseDups k.eraseDups := by
  -- What is equal to the first entry is dropped from both lists before the next is looked at.
  induction hn : l.length using Nat.strongRecOn generalizing l k with
  | ind n ih =>
    cases h with
    | nil => exact .nil
    | @cons a b l k hab hrest =>
      rw [List.eraseDups_cons, List.eraseDups_cons]
      have hfilter : Forall₂ R (l.filter fun x => !x == a) (k.filter fun y => !y == b) := by
        refine List.rel_filter (fun x y hxy => ?_) hrest
        simpa using not_congr (Relator.rel_eq hR hxy hab)
      have hlength := List.length_filter_le (fun x => !x == a) l
      rw [List.length_cons] at hn
      exact .cons hab (ih _ (by omega) hfilter rfl)

/-- What is held stands where it is held when what is gone is dropped. -/
theorem forall₂_filter_of_held {α β : Type} {t : Tree} (ht : t.Sound) {S P : α → β → Prop}
    {f : α → NodeId} {g : β → Path} (held : ∀ {a b}, S a b → t.Held (f a) (g b))
    (standing : ∀ {a b}, S a b → t.At (f a) (g b) → P a b) {l : List α} {k : List β}
    (h : Forall₂ S l k) :
    Forall₂ P (l.filter fun a => t.contains (f a)) (k.filter fun b => g b ∈ t.contents) := by
  induction h with
  | nil => exact .nil
  | @cons a b l k hab _ ih =>
    have hcontains := ht.contains_iff_of_held (held hab)
    by_cases hb : g b ∈ t.contents
    · simp only [List.filter_cons, hcontains.mpr hb, hb, decide_true, if_true]
      exact .cons (standing hab (Tree.Sound.at_of_held (held hab) hb)) ih
    · have ha : t.contains (f a) = false := by simpa [hb] using hcontains
      simpa [List.filter_cons, ha, hb] using ih

/-- A cursor of nodes and one of paths that go together. -/
structure Cursor.Follows (R : NodeId → Path → Prop) (c : Cursor) (d : PathCursor) : Prop where
  working : Forall₂ R c.working d.working
  values : Forall₂ (fun v w => R v.1 w.1 ∧ v.2 = w.2) c.values d.values

namespace Cursor.Follows

variable {t u : Tree} {c : Cursor} {d : PathCursor} {R S : NodeId → Path → Prop}

theorem imp (h : c.Follows R d) (hRS : ∀ i q, R i q → S i q) : c.Follows S d :=
  ⟨h.working.imp hRS, h.values.imp fun _ _ hv => ⟨hRS _ _ hv.1, hv.2⟩⟩

theorem settle (ht : t.Sound) (h : c.Follows t.Held d) :
    (c.settle t).Follows t.At (t.contents.settle d) where
  working :=
    forall₂_eraseDups ht.at_biUnique (forall₂_filter_of_held ht id (fun _ hat => hat) h.working)
  values := forall₂_filter_of_held ht (fun h => h.1) (fun h hat => ⟨hat, h.2⟩) h.values

theorem value?_eq (ht : t.Sound) (h : c.Follows t.At d) {id : NodeId} {p : Path}
    (hat : t.At id p) : c.value? id = (d.values.lookup p).join := by
  have hlookup : c.values.lookup id = d.values.lookup p := by
    obtain ⟨working, values⟩ := c
    obtain ⟨_, others⟩ := d
    have hvalues : Forall₂ (fun v w => t.At v.1 w.1 ∧ v.2 = w.2) values others := h.values
    show values.lookup id = others.lookup p
    clear h
    induction hvalues with
    | nil => rfl
    | @cons v w values others hvw _ ih =>
      obtain ⟨other, text⟩ := v
      obtain ⟨q, text'⟩ := w
      obtain ⟨hv, rfl⟩ := hvw
      have heq : id = other ↔ p = q := Relator.rel_eq ht.at_biUnique hat hv
      by_cases hp : p = q
      · simp [heq.mpr hp, hp]
      · have hid : (id == other) = false := by simpa using fun eq => hp (heq.mp eq)
        have hpb : (p == q) = false := by simpa using hp
        rw [List.lookup_cons, List.lookup_cons, hid, hpb, ih]
  rw [value?, hlookup]

theorem collect_eq (ht : t.Sound) (h : c.Follows t.At d) :
    c.collect t = t.contents.collect d := by
  have entries : ∀ {ids ps}, Forall₂ t.At ids ps →
      (ids.filterMap fun id => (t.entry? id).map fun e =>
        (e.path.text, (⟨e.kind, e.attributes, e.style, c.value? id⟩ : MatchedNode))) =
      ps.filterMap fun p => (t.contents.lookup p).map fun content =>
        (p.text, ⟨content.kind, content.attributes, content.style,
          (d.values.lookup p).join⟩) := by
    intro ids ps hids
    induction hids with
    | nil => rfl
    | cons hat _ ih =>
      have hvalue := h.value?_eq ht hat
      obtain ⟨e, he, rfl⟩ := hat
      simp only [List.filterMap_cons, he, ht.lookup_contents he, Option.map_some, hvalue, ih,
        Entry.content]
  rw [Cursor.collect, Contents.collect, entries h.working]

theorem select (ht : t.Sound) (s : Selector) :
    (⟨t.select s, []⟩ : Cursor).Follows t.At ⟨t.contents.select s, []⟩ :=
  ⟨ht.select_at s, .nil⟩

theorem read (ht : t.Sound) (h : c.Follows t.At d) (place : Place) (name : String) :
    Forall₂ (fun v w => t.At v.1 w.1 ∧ v.2 = w.2)
      (c.working.map fun id => (id, t.read? place name id))
      (d.working.map fun p => (p, t.contents.read? place name p)) := by
  refine List.rel_map (fun id p hat => ?_) h.working
  refine ⟨hat, ?_⟩
  obtain ⟨e, he, rfl⟩ := hat
  cases place <;> simp [Tree.read?, Contents.read?, he, ht.lookup_contents he, Entry.read?,
    Entry.content, Facet.read?, Facet.name, Facet.attribute?]

theorem children (ht : t.Sound) (h : c.Follows t.At d) :
    Forall₂ t.At ((c.working.filterMap t.entry?).flatMap fun e => e.children.values)
      (d.working.flatMap t.contents.children) := by
  have hworking := h.working
  generalize c.working = ids, d.working = ps at hworking
  induction hworking with
  | nil => exact .nil
  | cons hat _ ih =>
    obtain ⟨e, he, rfl⟩ := hat
    rw [List.filterMap_cons, he, List.flatMap_cons, List.flatMap_cons]
    exact List.rel_append (ht.children_at he) ih

end Cursor.Follows

namespace Transform

/-- Changing nodes comes to changing what is at their paths. -/
theorem changing_shows {R : Tree → NodeId → Path → Prop}
    {act : NodeId → EStateM TreeError Tree (List Change)}
    {act' : Contents → Path → Except TreeError (Contents × List Change)}
    (hsim : Simulates R act act') (hin : ∀ {t i q}, t.Sound → t.At i q → R t i q)
    (hout : ∀ {t i q}, R t i q → t.Held i q) (access : Access) (method : String) {t : Tree}
    (ht : t.Sound) {c : Cursor} {d : PathCursor} (h : c.Follows t.At d) :
    (changing access method act t c).Shows (fun t c d => c.Follows t.Held d)
      (t.contents.changing access method act' d) := by
  have hR : c.Follows (R t) d := h.imp fun _ _ hat => hin ht hat
  cases access with
  | shared => exact ⟨ht, rfl, rfl, .error fun path hp => by cases hp⟩
  | exclusive =>
    obtain ⟨shows, hkeeps⟩ := hsim.changeEach ht hR.working
    refine ⟨shows.sound, shows.contents, shows.changes, shows.result.map fun _ => ?_⟩
    exact hR.imp fun i q hi => hout (hkeeps i q hi)

theorem enact_shows (access : Access) (tr : Transform) {t : Tree} (ht : t.Sound) {c : Cursor}
    {d : PathCursor} (h : c.Follows t.At d) :
    (tr.enact access t c).Shows (fun t c d => c.Follows t.Held d)
      (t.contents.enact access tr d) := by
  have held : ∀ {c : Cursor} {d}, c.Follows t.At d → c.Follows t.Held d := fun h =>
    h.imp fun _ _ hat => hat.held
  have edited : ∀ {act act'}, Mirrors act act' →
      (changing access tr.method (fun id => single (act id)) t c).Shows
        (fun t c d => c.Follows t.Held d)
        (t.contents.changing access tr.method (fun m p => Contents.single (act' m p)) d) :=
    fun mirrors =>
      changing_shows mirrors.simulates (fun _ hat => hat) (fun hat => hat.held) access _ ht h
  cases tr with
  | read place name =>
    exact ⟨ht, rfl, rfl, .ok (held ⟨h.working, List.rel_append (h.read ht place name) h.values⟩)⟩
  | write place name value => exact edited (Tree.write_mirrors place name value)
  | append d => exact edited (Tree.insertChild_mirrors d)
  | after d => exact edited (Tree.insertSibling_mirrors d)
  -- Pruning may take a held node away; no other transform does.
  | empty => exact changing_shows prune_simulates (fun _ hat => hat.held) id access _ ht h
  | parent =>
    have parents := List.rel_filterMap (fun id p hat => ht.parent_at hat) h.working
    exact ⟨ht, rfl, rfl, .ok (held ⟨parents, h.values⟩)⟩
  | children => exact ⟨ht, rfl, rfl, .ok (held ⟨h.children ht, h.values⟩)⟩

theorem apply_shows (access : Access) (tr : Transform) {t : Tree} (ht : t.Sound) {c : Cursor}
    {d : PathCursor} (h : c.Follows t.At d) :
    (tr.apply access t c).Shows (fun t c d => c.Follows t.At d)
      (t.contents.apply access tr d) := by
  have acted := tr.enact_shows access ht h
  refine ⟨acted.sound, acted.contents, acted.changes, acted.result.map fun follows => ?_⟩
  rw [← acted.contents]
  exact follows.settle acted.sound

theorem applyAll_shows (access : Access) (trs : List Transform) {t : Tree} (ht : t.Sound)
    {c : Cursor} {d : PathCursor} (h : c.Follows t.At d) :
    (applyAll access trs t c).Shows (fun t c d => c.Follows t.At d)
      (t.contents.applyAll access trs d) := by
  induction trs generalizing t c d with
  | nil => exact ⟨ht, rfl, rfl, .ok h⟩
  | cons tr rest ih =>
    have first := tr.apply_shows access ht h
    have hresult := first.result
    rw [applyAll, Contents.applyAll]
    generalize hr : (tr.apply access t c).result = r,
      hr' : (t.contents.apply access tr d).result = r' at hresult
    cases hresult with
    | error he => exact ⟨first.sound, first.contents, first.changes, .error he⟩
    | ok hfollows =>
      have later := ih first.sound hfollows
      rw [first.contents] at later
      exact ⟨later.sound, later.contents, by simp only [first.changes, later.changes],
        later.result⟩

end Transform

namespace Plan

theorem run_shows (access : Access) (q : CompiledQuery) {t : Tree} (ht : t.Sound) :
    (q.run access t).Shows (fun _ => Eq) (t.contents.runMember access (.ok q)) := by
  have all := Transform.applyAll_shows access q.transforms ht (Cursor.Follows.select ht q.selector)
  refine ⟨all.sound, all.contents, all.changes, all.result.map fun h => ?_⟩
  rw [← all.contents]
  exact h.collect_eq all.sound

/-- Members on the arena answer, change and leave what they do on the contents. An error among the
answers is that of a member that could not be compiled, or it names no slot. -/
theorem runMembers_shows (access : Access) (ms : List (Except TreeError CompiledQuery)) {t : Tree}
    (ht : t.Sound) :
    t.contents.runMembers access ms = ((runMembers access ms t).tree.contents,
      (runMembers access ms t).results, (runMembers access ms t).changes) ∧
    ∀ e, .error e ∈ (runMembers access ms t).results → .error e ∈ ms ∨ e.NamesNoSlot := by
  induction ms generalizing t with
  | nil => exact ⟨rfl, fun e he => by cases he⟩
  | cons m rest ih =>
    cases m with
    | error err =>
      obtain ⟨later, named⟩ := ih ht
      refine ⟨?_, fun e he => ?_⟩
      · simp only [Contents.runMembers, Contents.runMember, runMembers, runMember, later]
      · rcases List.mem_cons.mp he with h | h
        · cases h
          exact Or.inl List.mem_cons_self
        · exact (named e h).imp_left (List.mem_cons_of_mem _)
    | ok q =>
      have first := run_shows access q ht
      obtain ⟨later, named⟩ := ih first.sound
      have hresult := first.result.eq
      refine ⟨?_, fun e he => ?_⟩
      · rw [first.contents] at later
        simp only [Contents.runMembers, runMembers, runMember, later, first.changes, hresult]
      · rcases List.mem_cons.mp he with h | h
        · exact Or.inr (first.result.namesNoSlot h.symm)
        · exact (named e h).imp_left (List.mem_cons_of_mem _)

end Plan

end HomeTree
