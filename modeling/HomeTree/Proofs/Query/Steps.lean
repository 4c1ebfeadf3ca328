import HomeTree.Proofs.Contents.Prune
import HomeTree.Query.Plan

namespace HomeTree

open HomeTree.Tree (Steps)

/-- An action on nodes that goes by recorded steps, or fails before it does anything. -/
structure Stepwise (act : NodeId → EStateM TreeError Tree (List Change)) : Prop where
  steps : ∀ {t u : Tree} {id : NodeId} {cs : List Change}, t.Sound → act id t = .ok cs u →
    Steps t cs u
  early : ∀ id, FailsEarly (act id)

theorem changeEach_steps {act : NodeId → EStateM TreeError Tree (List Change)}
    (hact : Stepwise act) (ids : List NodeId) {t : Tree} (ht : t.Sound) :
    Steps t (changeEach act ids t).changes (changeEach act ids t).tree := by
  induction ids generalizing t with
  | nil => exact .refl
  | cons id rest ih =>
    cases h : act id t with
    | error e u =>
      cases hact.early id t e u h
      simp only [changeEach, h]
      exact .refl
    | ok cs u =>
      have first := hact.steps ht h
      simp only [changeEach, h]
      exact first.trans (ih (first.sound ht))

section

variable {act : EStateM TreeError Tree Change} {t u : Tree} {c : Change} {cs : List Change}
  {e : TreeError}

theorem single_of_ok (h : act t = .ok c u) : single act t = .ok [c] u := by
  simp only [single, bind, EStateM.bind, h]
  rfl

theorem single_of_error (h : act t = .error e u) : single act t = .error e u := by
  simp only [single, bind, EStateM.bind, h]

theorem single_eq_ok (h : single act t = .ok cs u) : ∃ c, act t = .ok c u ∧ cs = [c] := by
  cases made : act t with
  | error e v =>
    rw [single_of_error made] at h
    cases h
  | ok c v =>
    rw [single_of_ok made] at h
    cases h
    exact ⟨c, rfl, rfl⟩

theorem single_eq_error (h : single act t = .error e u) : act t = .error e u := by
  cases made : act t with
  | error f v =>
    rw [single_of_error made] at h
    cases h
    rfl
  | ok c v =>
    rw [single_of_ok made] at h
    cases h

theorem fails_single {R : Tree → TreeError → Tree → Prop} (h : Fails R act) :
    Fails R (single act) :=
  fun t e u failed => h t e u (single_eq_error failed)

end

/-- An attempt at one change, and that is no removal. -/
structure Edits (act : EStateM TreeError Tree Change) : Prop where
  step : ∀ {t u : Tree} {c : Change}, act t = .ok c u → Tree.Step t c u ∧ c.event ≠ .removed
  early : FailsEarly act

namespace Tree

theorem insertChild_edits (parent : NodeId) (d : Descriptor) : Edits (insertChild parent d) where
  step := by
    intro t u c h
    obtain ⟨_, _, _, _, _, _, _, hchange⟩ := insertChild_eq_ok h
    exact ⟨.insertChild h, by simp [hchange]⟩
  early := insertChild_failsEarly parent d

theorem insertSibling_edits (id : NodeId) (d : Descriptor) : Edits (insertSibling id d) where
  step := by
    intro t u c h
    obtain ⟨above, -, h⟩ := exists_of_lift_bind_eq_ok h
    exact (insertChild_edits above d).step h
  early := .get_bind fun _ => .lift_bind (fun _ _ _ => rfl) fun above =>
    insertChild_failsEarly above d

theorem write_edits (place : Place) (name value : String) (id : NodeId) :
    Edits (write place name value id) := by
  cases place with
  | attributes =>
    refine ⟨fun h => ?_, setAttribute_failsEarly id name value⟩
    obtain ⟨_, _, _, _, hchange⟩ := setAttribute_eq_ok h
    exact ⟨.setAttribute h, by simp [hchange]⟩
  | style =>
    refine ⟨fun h => ?_, setStyle_failsEarly id name value⟩
    obtain ⟨_, _, _, hchange⟩ := setStyle_eq_ok h
    exact ⟨.setStyle h, by simp [hchange]⟩

end Tree

/-- Edits of nodes are recorded as their changes. -/
theorem Edits.stepwise {act : NodeId → EStateM TreeError Tree Change} (h : ∀ id, Edits (act id)) :
    Stepwise fun id => single (act id) where
  steps := by
    intro t u id cs _ made
    obtain ⟨c, hc, rfl⟩ := single_eq_ok made
    exact ((h id).step hc).1.single
  early := fun id => fails_single (h id).early

theorem Tree.Sound.prune_steps {t : Tree} (ht : t.Sound) (id : NodeId) :
    Steps t (t.prune id).2 (t.prune id).1 := by
  cases he : t.entry? id with
  | none =>
    rw [ht.prune_of_none he]
    exact .refl
  | some e => exact (ht.prune_removes he).steps

theorem prune_stepwise : Stepwise fun id => modifyGet fun t => (t.prune id).swap where
  steps := by
    intro t u id cs ht h
    cases h
    exact ht.prune_steps id
  early := fun id => .of_ok fun _ => ⟨_, _, rfl⟩

namespace Transform

theorem changing_steps (access : Access) (method : String)
    {act : NodeId → EStateM TreeError Tree (List Change)} (hact : Stepwise act) {t : Tree}
    (ht : t.Sound) (c : Cursor) :
    Steps t (changing access method act t c).changes (changing access method act t c).tree := by
  cases access with
  | shared => exact .refl
  | exclusive => exact changeEach_steps hact c.working ht

theorem apply_steps (access : Access) (tr : Transform) {t : Tree} (ht : t.Sound) (c : Cursor) :
    Steps t (tr.apply access t c).changes (tr.apply access t c).tree := by
  show Steps t (tr.enact access t c).changes (tr.enact access t c).tree
  cases tr with
  | write place name value =>
    exact changing_steps access _ (Edits.stepwise (Tree.write_edits place name value)) ht c
  | append d =>
    exact changing_steps access _ (Edits.stepwise (Tree.insertChild_edits · d)) ht c
  | after d => exact changing_steps access _ (Edits.stepwise (Tree.insertSibling_edits · d)) ht c
  | empty => exact changing_steps access _ prune_stepwise ht c
  | read place name => exact .refl
  | parent => exact .refl
  | children => exact .refl

theorem applyAll_steps (access : Access) (trs : List Transform) {t : Tree} (ht : t.Sound)
    (c : Cursor) : Steps t (applyAll access trs t c).changes (applyAll access trs t c).tree := by
  induction trs generalizing t c with
  | nil => exact .refl
  | cons tr rest ih =>
    have first := tr.apply_steps access ht c
    rw [applyAll]
    cases h : (tr.apply access t c).result with
    | error e => exact first
    | ok d => exact first.trans (ih (first.sound ht) d)

end Transform

namespace Plan

theorem runMember_steps (access : Access) (m : Except TreeError CompiledQuery) {t : Tree}
    (ht : t.Sound) : Steps t (runMember access t m).changes (runMember access t m).tree := by
  cases m with
  | error e => exact .refl
  | ok q => exact Transform.applyAll_steps access q.transforms ht _

theorem runMembers_steps (access : Access) (ms : List (Except TreeError CompiledQuery)) {t : Tree}
    (ht : t.Sound) : Steps t (runMembers access ms t).changes (runMembers access ms t).tree := by
  induction ms generalizing t with
  | nil => exact .refl
  | cons m rest ih =>
    have first := runMember_steps access m ht
    exact first.trans (ih (first.sound ht))

theorem execute_steps (p : Plan) {t : Tree} (ht : t.Sound) :
    Steps t (p.execute t).changes (p.execute t).tree :=
  runMembers_steps .exclusive p.members ht

end Plan

end HomeTree
