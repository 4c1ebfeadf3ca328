import HomeTree.Proofs.Contents.Query
import HomeTree.Proofs.Contents.Standing
import HomeTree.Proofs.Query.Steps

namespace HomeTree

open List (Forall₂)

/-- The one missing node an error can speak of is the parent of the root, never a slot. -/
def TreeError.NamesNoSlot (e : TreeError) : Prop :=
  ∀ path, e = .noSuchNode path → path = "/.."

/-- Two results that are the same failure, or successes that go together. -/
inductive Agree {α β : Type} (R : α → β → Prop) :
    Except TreeError α → Except TreeError β → Prop
  | ok {a : α} {b : β} : R a b → Agree R (.ok a) (.ok b)
  | error {e : TreeError} : e.NamesNoSlot → Agree R (.error e) (.error e)

theorem Agree.map {α β γ δ : Type} {R : α → β → Prop} {S : γ → δ → Prop} {f : α → γ} {g : β → δ}
    {x : Except TreeError α} {y : Except TreeError β} (h : Agree R x y)
    (hfg : ∀ {a b}, R a b → S (f a) (g b)) : Agree S (x.map f) (y.map g) := by
  cases h with
  | ok h => exact .ok (hfg h)
  | error h => exact .error h

theorem Agree.eq {α : Type} {x y : Except TreeError α} (h : Agree Eq x y) : x = y := by
  cases h with
  | ok h => rw [h]
  | error => rfl

theorem Agree.namesNoSlot {α β : Type} {R : α → β → Prop} {x : Except TreeError α}
    {y : Except TreeError β} (h : Agree R x y) {e : TreeError} (he : x = .error e) :
    e.NamesNoSlot := by
  subst he
  cases h with
  | error h => exact h

/-- An outcome on the arena and one on the contents that come to the same. -/
structure Outcome.Shows {α β : Type} (R : Tree → α → β → Prop) (o : Outcome α)
    (d : PathOutcome β) : Prop where
  sound : o.tree.Sound
  contents : o.tree.contents = d.contents
  changes : o.changes = d.changes
  result : Agree (R o.tree) o.result d.result

/-- An action on nodes that comes to an action on paths wherever nodes and paths are related, and
keeps them so. -/
structure Simulates (R : Tree → NodeId → Path → Prop)
    (act : NodeId → EStateM TreeError Tree (List Change))
    (act' : Contents → Path → Except TreeError (Contents × List Change)) : Prop where
  answers : ∀ {t id p}, t.Sound → R t id p →
    onContents (act id t) = allOrNothing t.contents (act' t.contents p)
  stepwise : Stepwise act
  keeps : ∀ {t u id p cs}, t.Sound → R t id p → act id t = .ok cs u → ∀ i q, R t i q → R u i q
  named : ∀ {t u id p e}, t.Sound → R t id p → act id t = .error e u → e.NamesNoSlot

theorem Simulates.changeEach {R : Tree → NodeId → Path → Prop}
    {act : NodeId → EStateM TreeError Tree (List Change)}
    {act' : Contents → Path → Except TreeError (Contents × List Change)}
    (h : Simulates R act act') {t : Tree} (ht : t.Sound) {ids : List NodeId} {ps : List Path}
    (hids : Forall₂ (R t) ids ps) :
    (changeEach act ids t).Shows (fun _ _ _ => True) (t.contents.changeEach act' ps) ∧
      ∀ i q, R t i q → R (changeEach act ids t).tree i q := by
  induction ids generalizing t ps with
  | nil =>
    cases hids
    exact ⟨⟨ht, rfl, rfl, .ok trivial⟩, fun _ _ hi => hi⟩
  | cons id rest ih =>
    cases hids with
    | cons hid hrest =>
      have hanswer := (h.answers ht hid).symm
      cases hact : act id t with
      | error e u =>
        cases h.stepwise.early id t e u hact
        rw [hact] at hanswer
        obtain ⟨hanswer, -⟩ := allOrNothing_eq_error.mp hanswer
        simp only [HomeTree.changeEach, Contents.changeEach, hact, hanswer]
        exact ⟨⟨ht, rfl, rfl, .error (h.named ht hid hact)⟩, fun _ _ hi => hi⟩
      | ok cs u =>
        have hkeeps := h.keeps ht hid hact
        obtain ⟨later, hlater⟩ := ih ((h.stepwise.steps ht hact).sound ht)
          (hrest.imp hkeeps)
        rw [hact] at hanswer
        have hanswer := allOrNothing_eq_ok.mp hanswer
        simp only [HomeTree.changeEach, Contents.changeEach, hact, hanswer]
        exact ⟨⟨later.sound, later.contents, congrArg (cs ++ ·) later.changes, later.result⟩,
          fun i q hi => hlater i q (hkeeps i q hi)⟩

/-- An edit of a node that comes to an edit at the path where the node stands. -/
structure Mirrors (act : NodeId → EStateM TreeError Tree Change)
    (act' : Contents → Path → Except TreeError (Contents × Change)) : Prop where
  answers : ∀ {t id p}, t.Sound → t.At id p →
    onContents (act id t) = allOrNothing t.contents (act' t.contents p)
  edits : ∀ id, Edits (act id)
  named : ∀ {t u id p e}, t.Sound → t.At id p → act id t = .error e u → e.NamesNoSlot

theorem onContents_single (act : EStateM TreeError Tree Change) (t : Tree)
    {r : Except TreeError (Contents × Change)}
    (h : onContents (act t) = allOrNothing t.contents r) :
    onContents (single act t) = allOrNothing t.contents (Contents.single r) := by
  cases made : act t with
  | error e u =>
    rw [made] at h
    obtain ⟨rfl, same⟩ := allOrNothing_eq_error.mp h.symm
    rw [single_of_error made]
    exact congrArg (EStateM.Result.error e) same
  | ok c u =>
    rw [made] at h
    obtain rfl := allOrNothing_eq_ok.mp h.symm
    rw [single_of_ok made]
    rfl

/-- On nodes that stand at their paths an edit does what it does at the paths. -/
theorem Mirrors.simulates {act : NodeId → EStateM TreeError Tree Change}
    {act' : Contents → Path → Except TreeError (Contents × Change)} (h : Mirrors act act') :
    Simulates Tree.At (fun id => single (act id)) fun m p => Contents.single (act' m p) where
  answers := fun ht hat => onContents_single _ _ (h.answers ht hat)
  stepwise := Edits.stepwise h.edits
  keeps := by
    intro t u id p cs ht _ made i q hi
    obtain ⟨c, hc, rfl⟩ := single_eq_ok made
    obtain ⟨step, kept⟩ := (h.edits id).step hc
    exact step.at_of_kept ht kept hi
  named := fun ht hat failed => h.named ht hat (single_eq_error failed)

namespace Tree

theorem namesNoSlot_of_insertChild {t u : Tree} {id : NodeId} {p : Path} (h : t.At id p)
    {d : Descriptor} {e : TreeError} (he : t.insertChild id d = .error e u) : e.NamesNoSlot := by
  obtain ⟨f, hf, rfl⟩ := h
  rintro path rfl
  rw [insertChild_of_living hf, allOrNothing_eq_error] at he
  obtain ⟨he, -⟩ := he
  by_cases hname : validComponent d.name = true
  · by_cases hkind : validKind d.kind = true
    · simp only [checkComponent, checkKind, hname, hkind, if_true, bind, Except.bind] at he
      split at he
      next => cases he
      next => split at he <;> cases he
    · simp [checkComponent, checkKind, hname, hkind, bind, Except.bind] at he
  · simp [checkComponent, hname, bind, Except.bind] at he

theorem insertChild_mirrors (d : Descriptor) :
    Mirrors (fun id => insertChild id d) fun m p => m.insertChild p d where
  answers := by
    rintro t id p ht ⟨e, he, rfl⟩
    exact ht.insertChild_eq he d
  edits := fun id => insertChild_edits id d
  named := fun _ hat failed => namesNoSlot_of_insertChild hat failed

/-- Above a node that stands at a path is the one at the path above, if there is any. -/
theorem Sound.above_at {t : Tree} (ht : t.Sound) {id : NodeId} {p : Path} (hat : t.At id p) :
    (t.above id = .error (.noSuchNode "/..") ∧ p.parent? = none) ∨
      ∃ above q, t.above id = .ok above ∧ p.parent? = some q ∧ t.At above q := by
  have hparent := ht.parent_at hat
  rw [Tree.above]
  generalize t.entry? id >>= Entry.parent = above, p.parent? = q at hparent
  cases hparent with
  | none => exact .inl ⟨rfl, rfl⟩
  | some h => exact .inr ⟨_, _, rfl, rfl, h⟩

theorem insertSibling_mirrors (d : Descriptor) :
    Mirrors (fun id => insertSibling id d) fun m p => m.insertSibling p d where
  answers := by
    intro t id p ht hat
    rcases ht.above_at hat with ⟨none, hp⟩ | ⟨above, q, some, hq, hat⟩
    · rw [Contents.insertSibling, hp]
      exact congrArg onContents (lift_bind_error none)
    · rw [Contents.insertSibling, hq]
      exact (congrArg onContents (lift_bind_ok some)).trans
        ((insertChild_mirrors d).answers ht hat)
  edits := fun id => insertSibling_edits id d
  named := by
    intro t u id p e ht hat failed
    rcases ht.above_at hat with ⟨none, -⟩ | ⟨above, q, some, -, hat⟩
    · cases (lift_bind_error none).symm.trans failed
      exact fun path hpath => (TreeError.noSuchNode.inj hpath).symm
    · exact namesNoSlot_of_insertChild hat ((lift_bind_ok some).symm.trans failed)

theorem write_mirrors (place : Place) (name value : String) :
    Mirrors (write place name value) fun m p => m.write place name value p where
  answers := by
    rintro t id p ht ⟨e, he, rfl⟩
    cases place with
    | attributes => exact ht.setAttribute_eq he name value
    | style => exact ht.setStyle_eq he name value
  edits := write_edits place name value
  named := by
    rintro t u id p err ht ⟨e, he, rfl⟩ failed
    cases place with
    | attributes =>
      have made : t.setAttribute id name value = .error err u := failed
      rw [setAttribute_of_living he, allOrNothing_eq_error] at made
      obtain ⟨refused, -⟩ := made
      split at refused
      next =>
        cases refused
        exact nofun
      next => cases refused
    | style =>
      have made : t.setStyle id name value = .error err u := failed
      rw [setStyle_of_living he] at made
      cases made

end Tree

/-- Pruning does what it does at the paths also where nodes may be gone together with them. -/
theorem prune_simulates : Simulates Tree.Held (fun id => modifyGet fun t => (t.prune id).swap)
    fun m p => .ok (m.prune p) where
  answers := by
    intro t id p ht hheld
    have pruned : ∀ r : Tree × List Change, (r.1.contents, r.2) = t.contents.prune p →
        onContents (.ok r.2 r.1) = allOrNothing t.contents (.ok (t.contents.prune p)) := by
      intro r same
      rw [← same]
      rfl
    refine pruned (t.prune id) ?_
    rcases hheld with ⟨e, he, rfl⟩ | ⟨hnone, hp⟩
    · exact (ht.contents_prune he).symm
    · rw [ht.prune_of_none hnone, Contents.prune_of_not_mem ht.prefixClosed_contents hp]
  stepwise := prune_stepwise
  keeps := by
    intro t u id p cs ht hheld hact i q hi
    have hprune : t.prune id = (u, cs) := by
      cases hact
      rfl
    rcases hheld with ⟨e, he, rfl⟩ | ⟨hnone, _⟩
    · have := (ht.prune_removes he).held ht hi
      rwa [hprune] at this
    · rw [ht.prune_of_none hnone] at hprune
      cases hprune
      exact hi
  named := by
    intro t u id p e _ _ hact
    cases hact

end HomeTree
