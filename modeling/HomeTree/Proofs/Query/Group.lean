import HomeTree.Proofs.Query.Execution
import HomeTree.Proofs.Tree.Reachable

namespace HomeTree

theorem exists_of_mapM_eq_error {α β ε : Type} {f : α → Except ε β} {l : List α} {e : ε}
    (h : l.mapM f = .error e) : ∃ a ∈ l, f a = .error e := by
  induction l with
  | nil => cases h
  | cons a rest ih =>
    rw [List.mapM_cons] at h
    cases ha : f a with
    | error e' =>
      rw [ha] at h
      cases h
      exact ⟨a, List.mem_cons_self, ha⟩
    | ok b =>
      cases hrest : rest.mapM f with
      | error e' =>
        rw [ha, hrest] at h
        cases h
        obtain ⟨c, hc, hce⟩ := ih hrest
        exact ⟨c, List.mem_cons_of_mem _ hc, hce⟩
      | ok bs =>
        rw [ha, hrest] at h
        cases h

/-- A query that cannot be compiled has a bad selector or a bad transform. -/
theorem CompiledQuery.namesNoSlot_of_compile {spec : QuerySpec} {e : TreeError}
    (h : compile spec = .error e) : e.NamesNoSlot := by
  simp only [compile, bind, Except.bind] at h
  split at h
  next hparse =>
    cases h
    simp only [Selector.parse] at hparse
    split at hparse
    next => cases hparse
    next =>
      cases hparse
      intro path hpath
      cases hpath
  next =>
    split at h
    next hmap =>
      cases h
      obtain ⟨raw, _, hraw⟩ := exists_of_mapM_eq_error hmap
      simp only [Transform.ofRaw] at hraw
      split at hraw
      next => cases hraw
      next =>
        cases hraw
        intro path hpath
        cases hpath
    next => cases h

namespace Plan

open HomeTree.Tree (Call run)

/-- Two histories that lead to equal contents lead to equal answers, equal changes and equal
contents behind them, whatever slots they have left free: all of it is what the group does on the
contents, and no error speaks of a slot. -/
theorem execute_depends_on_contents (specs : List QuerySpec) (past others : List Call)
    (h : (run past).contents = (run others).contents) :
    let plan := compile specs
    let o := plan.execute (run past)
    let o' := plan.execute (run others)
    o.results = o'.results ∧ o.changes = o'.changes ∧ o.tree.contents = o'.tree.contents ∧
      (run past).contents.runMembers .exclusive plan.members =
        (o.tree.contents, o.results, o.changes) ∧
      ∀ path, .error (.noSuchNode path) ∈ o.results → path = "/.." := by
  intro plan o o'
  obtain ⟨shows, named⟩ := runMembers_shows .exclusive plan.members (Tree.run_sound past)
  obtain ⟨shows', _⟩ := runMembers_shows .exclusive plan.members (Tree.run_sound others)
  have equal := (shows.symm.trans (h ▸ rfl)).trans shows'
  obtain ⟨hcontents, hrest⟩ := Prod.mk.inj equal
  obtain ⟨hresults, hchanges⟩ := Prod.mk.inj hrest
  refine ⟨hresults, hchanges, hcontents, shows, fun path hpath => ?_⟩
  rcases named _ hpath with hmember | hnamed
  · obtain ⟨spec, _, hspec⟩ := List.mem_map.mp hmember
    exact CompiledQuery.namesNoSlot_of_compile hspec path rfl
  · exact hnamed path rfl

/-- One of these trees keeps `c` in a slot that was freed before, the other does not. -/
theorem execute_depends_on_contents_reused :
    let past : List Call := [.create "/" "a" "node", .create "/" "b" "node", .remove "/" "a",
      .create "/" "c" "node"]
    let others : List Call := [.create "/" "b" "node", .create "/" "c" "node"]
    let plan := compile [⟨"node", [⟨"attr", [.string "name"]⟩, ⟨"parent", []⟩, ⟨"empty", []⟩]⟩]
    (run past).contents = (run others).contents ∧ run past ≠ run others ∧
      (plan.execute (run past)).results = (plan.execute (run others)).results ∧
      (plan.execute (run past)).changes = (plan.execute (run others)).changes := by
  intro past others plan
  have same : (run past).contents = (run others).contents := by decide
  obtain ⟨results, changes, _⟩ := execute_depends_on_contents
    [⟨"node", [⟨"attr", [.string "name"]⟩, ⟨"parent", []⟩, ⟨"empty", []⟩]⟩] past others same
  exact ⟨same, by decide, results, changes⟩

/-- The changes of a group, applied one after the other, lead from the contents before to the
contents behind, and each record leads all the way down to its path. -/
theorem changes_replay (past : List Call) (plan : Plan) :
    let t := run past
    let o := plan.execute t
    Contents.Replays t.contents o.changes o.tree.contents ∧
      ∀ c ∈ o.changes, c.lineage.length = c.path.depth + 1 := by
  intro t o
  have steps := plan.execute_steps (Tree.run_sound past)
  exact ⟨steps.replays (Tree.run_sound past), steps.length_lineage (Tree.run_sound past)⟩

end Plan

end HomeTree
