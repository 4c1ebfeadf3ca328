import HomeTree.Proofs.Contents.Emptying

namespace HomeTree

open List (Forall₂)

/-- A call that removes the node at a path. The path above may be written in any way. -/
def StoreCall.RemovesAt (call : StoreCall) (p : Path) : Prop :=
  ∃ parent above name, call = .remove parent name ∧ Path.parse parent = .ok above ∧
    p = above.child name

/-- The answer to a removal: the record of it, with the lineage that the node has still. -/
def Contents.removal (m : Contents) (p : Path) : StoreAnswer :=
  .change (.ok ⟨p, .removed, m.lineage p⟩)

namespace Tree

/-- The tree behind calls, whatever is answered to them. -/
def afterCalls (t : Tree) (calls : List StoreCall) : Tree :=
  (answerAll answer calls t).1

/-- What a removal comes to where its node is. -/
structure Tries (t : Tree) (p : Path) (r : Tree × StoreAnswer) : Prop where
  refused : (∃ q ∈ t.contents, p.Above q) →
    r = (t, .change (.error (.nodeContainsChildren p.text)))
  removed : (∀ q ∈ t.contents, ¬p.Above q) →
    r.2 = t.contents.removal p ∧ r.1.contents = t.contents.erase p

section

variable {t : Tree} {call : StoreCall} {calls : List StoreCall} {p q : Path} {ps : List Path}

theorem Sound.tries_answer (ht : t.Sound) (h : call.RemovesAt p) (hp : p ∈ t.contents) :
    Tries t p (t.answer call) := by
  obtain ⟨parent, above, name, rfl, hparent, rfl⟩ := h
  obtain ⟨id, e, he, hpath⟩ := ht.mem_contents_iff.mp hp
  have hname : validComponent name = true := (ht.checked he).names name (by simp [hpath])
  have habove : above ∈ t.contents :=
    ht.prefixClosed_contents _ _ hp (Path.above_child above name)
  have direct := ht.removeChild_eq parent name
  simp only [Contents.removeChild, hparent, checkComponent, hname, habove, hp, bind, Except.bind,
    if_true, not_true_eq_false, if_false] at direct
  rw [Tree.answer]
  constructor
  · rintro ⟨q, hq, hbelow⟩
    have left : ¬t.contents.Childless (above.child name) := fun none =>
      Contents.childless_iff.mp none q hq hbelow
    rw [if_neg left] at direct
    cases made : t.removeChild parent name with
    | error err u =>
      cases removeChild_failsEarly parent name t err u made
      rw [made] at direct
      cases direct
      rfl
    | ok c u =>
      rw [made] at direct
      cases direct
  · intro none
    rw [if_pos (Contents.childless_iff.mpr none)] at direct
    cases made : t.removeChild parent name with
    | error err u =>
      rw [made] at direct
      cases direct
    | ok c u =>
      rw [made] at direct
      obtain ⟨change, contents⟩ := EStateM.Result.ok.inj direct
      exact ⟨by rw [Contents.removal, ← change]; rfl, contents⟩

/-- A removal takes no other node away. -/
theorem Tries.mem {r : Tree × StoreAnswer} (h : Tries t p r) (hq : q ∈ t.contents) (ne : q ≠ p) :
    q ∈ Tree.contents r.1 := by
  by_cases none : ∀ q ∈ t.contents, ¬p.Above q
  · rw [(h.removed none).2, Finmap.mem_erase]
    exact ⟨ne, hq⟩
  · push Not at none
    rw [h.refused none]
    exact hq

/-- Where each call has its own node, every node is there when its turn comes. -/
theorem Sound.tries_each (ht : t.Sound) (each : Forall₂ StoreCall.RemovesAt calls ps)
    (distinct : ps.Nodup) (there : ∀ p ∈ ps, p ∈ t.contents) {i : Nat}
    (hcall : calls[i]? = some call) (hp : ps[i]? = some p) :
    p ∈ (t.afterCalls (calls.take i)).contents ∧
      Tries (t.afterCalls (calls.take i)) p ((t.afterCalls (calls.take i)).answer call) := by
  induction each generalizing t i with
  | nil => cases hp
  | @cons c q calls ps first _ ih =>
    obtain ⟨hq, others⟩ := List.forall_mem_cons.mp there
    obtain ⟨fresh, distinct⟩ := List.nodup_cons.mp distinct
    have tried := ht.tries_answer first hq
    cases i with
    | zero =>
      cases hcall
      cases hp
      exact ⟨hq, tried⟩
    | succ i =>
      have left : ∀ r ∈ ps, r ∈ (t.answer c).1.contents := fun r hr =>
        tried.mem (others r hr) fun eq => fresh (eq ▸ hr)
      exact ih (ht.sound_answer c) distinct left hcall hp

/-- Nodes that are listed behind all that is below them go one after the other, each with the
lineage that it had at first. -/
theorem Sound.removes_each (ht : t.Sound) (each : Forall₂ StoreCall.RemovesAt calls ps)
    (distinct : ps.Nodup) (all : ∀ p, p ∈ ps ↔ p ∈ t.contents ∧ p ≠ Path.root)
    (upward : ps.Pairwise fun p q => ¬p.Above q) :
    (answerAll answer calls t).2 = ps.map t.contents.removal ∧
      ∀ q, q ∈ (t.afterCalls calls).contents ↔ q = Path.root := by
  induction each generalizing t with
  | nil =>
    obtain ⟨e, he, hpath, -⟩ := ht.root
    refine ⟨rfl, fun q => ⟨fun hq => ?_, fun hq => hq ▸ hpath ▸ ht.mem_contents he⟩⟩
    by_contra hne
    cases (all q).mpr ⟨hq, hne⟩
  | @cons call p calls ps first _ ih =>
    obtain ⟨fresh, distinct⟩ := List.nodup_cons.mp distinct
    obtain ⟨hup, upward⟩ := List.pairwise_cons.mp upward
    have hp : p ∈ t.contents := ((all p).mp List.mem_cons_self).1
    -- What is below the first node is in the list, but neither the node itself nor behind it.
    have bare : ∀ q ∈ t.contents, ¬p.Above q := by
      intro q hq hbelow
      have hroot : q ≠ Path.root := fun eq => Path.not_above_root p (eq ▸ hbelow)
      rcases List.mem_cons.mp ((all q).mpr ⟨hq, hroot⟩) with rfl | hrest
      · exact Path.not_above_self q hbelow
      · exact hup q hrest hbelow
    obtain ⟨answered, contents⟩ := (ht.tries_answer first hp).removed bare
    have rest : ∀ q, q ∈ ps ↔ q ∈ (t.answer call).1.contents ∧ q ≠ Path.root := by
      intro q
      rw [contents, Finmap.mem_erase, and_assoc, ← all, List.mem_cons]
      constructor
      · exact fun hq => ⟨fun eq => fresh (eq ▸ hq), .inr hq⟩
      · exact fun ⟨hne, hq⟩ => hq.resolve_left hne
    have kept : ∀ q ∈ ps, (t.answer call).1.contents.removal q = t.contents.removal q := by
      intro q hq
      have lineage : (t.answer call).1.contents.lineage q = t.contents.lineage q := by
        rw [contents]
        refine Contents.lineage_congr fun r hr => Finmap.lookup_erase_ne ?_
        rintro rfl
        rcases Path.covers_iff.mp hr with rfl | hbelow
        · exact fresh hq
        · exact hup q hq hbelow
      rw [Contents.removal, lineage, Contents.removal]
    obtain ⟨answers, left⟩ := ih (ht.sound_answer call) distinct rest upward
    rw [List.map_congr_left kept] at answers
    exact ⟨by rw [answerAll, List.map_cons, ← answered, ← answers], left⟩

end

/-- In whatever order the nodes of a tree are removed, each once, a node is there when its turn
comes, and it is refused just when something is left below it. If each comes behind all that is
below it, none is refused and the root alone is left. -/
theorem removals_in_turn (past : List Call) (calls : List StoreCall) (ps : List Path)
    (each : Forall₂ StoreCall.RemovesAt calls ps) (distinct : ps.Nodup)
    (all : ∀ p, p ∈ ps ↔ p ∈ (run past).contents ∧ p ≠ Path.root) :
    let t := run past
    (∀ i call p, calls[i]? = some call → ps[i]? = some p →
      let u := t.afterCalls (calls.take i)
      p ∈ u.contents ∧
        ((∃ q ∈ u.contents, p.Above q) →
          u.answer call = (u, .change (.error (.nodeContainsChildren p.text)))) ∧
        ((∀ q ∈ u.contents, ¬p.Above q) →
          (u.answer call).2 = u.contents.removal p ∧
            (u.answer call).1.contents = u.contents.erase p)) ∧
      (ps.Pairwise (fun p q => ¬p.Above q) →
        (answerAll answer calls t).2 = ps.map t.contents.removal ∧
          (∀ q, q ∈ (t.afterCalls calls).contents ↔ q = Path.root) ∧
          (t.afterCalls calls).size = 1 ∧ (t.afterCalls calls).isEmpty = true) := by
  intro t
  have ht : t.Sound := run_sound past
  refine ⟨fun i call p hcall hp => ?_, fun upward => ?_⟩
  · obtain ⟨there, tried⟩ :=
      ht.tries_each each distinct (fun q hq => ((all q).mp hq).1) hcall hp
    exact ⟨there, tried.refused, tried.removed⟩
  · obtain ⟨answers, left⟩ := ht.removes_each each distinct all upward
    have keys : (t.afterCalls calls).contents.keys = {Path.root} := by
      ext q
      rw [Finmap.mem_keys, left, Finset.mem_singleton]
    have sound : (t.afterCalls calls).Sound := ht.sound_answerAll calls
    have size : (t.afterCalls calls).size = 1 := by
      rw [sound.size_eq_card, keys, Finset.card_singleton]
    exact ⟨answers, left, size, beq_iff_eq.mpr size⟩

/-- A node with a branch of two nodes, and another one. -/
def shelved : List Call :=
  [.create "/" "a" "node", .create "/a" "b" "node", .create "/a/b" "c" "node",
    .create "/" "d" "node"]

/-- From above the first two are refused and stay; from below none is. -/
theorem removals_in_turn_shelved :
    let downward : List StoreCall :=
      [.remove "/" "a", .remove "/a/" "b", .remove "/a/b" "c", .remove "/" "d"]
    let upward : List StoreCall :=
      [.remove "/a/b" "c", .remove "/" "d", .remove "/a/" "b", .remove "/" "a"]
    let u := (run shelved).afterCalls (downward.take 1)
    u.answer (.remove "/a/" "b") = (u, .change (.error (.nodeContainsChildren "/a/b"))) ∧
      ((run shelved).afterCalls upward).isEmpty = true := by
  intro downward upward u
  have keys : (run shelved).contents.keys =
      {Path.root, ⟨["a"]⟩, ⟨["a", "b"]⟩, ⟨["a", "b", "c"]⟩, ⟨["d"]⟩} := by decide +kernel
  have all : ∀ p, p ∈ (run shelved).contents ∧ p ≠ Path.root ↔
      p ∈ [(⟨["a"]⟩ : Path), ⟨["a", "b"]⟩, ⟨["a", "b", "c"]⟩, ⟨["d"]⟩] := by
    intro p
    rw [← Finmap.mem_keys, keys]
    simp only [Finset.mem_insert, Finset.mem_singleton, List.mem_cons, List.not_mem_nil, or_false]
    refine ⟨fun ⟨h, hne⟩ => h.resolve_left hne, fun h => ⟨.inr h, ?_⟩⟩
    rintro rfl
    revert h
    decide
  have a : StoreCall.RemovesAt (.remove "/" "a") ⟨["a"]⟩ :=
    ⟨"/", ⟨[]⟩, "a", rfl, by decide, rfl⟩
  have b : StoreCall.RemovesAt (.remove "/a/" "b") ⟨["a", "b"]⟩ :=
    ⟨"/a/", ⟨["a"]⟩, "b", rfl, by decide, rfl⟩
  have c : StoreCall.RemovesAt (.remove "/a/b" "c") ⟨["a", "b", "c"]⟩ :=
    ⟨"/a/b", ⟨["a", "b"]⟩, "c", rfl, by decide, rfl⟩
  have d : StoreCall.RemovesAt (.remove "/" "d") ⟨["d"]⟩ :=
    ⟨"/", ⟨[]⟩, "d", rfl, by decide, rfl⟩
  have fromAbove := (removals_in_turn shelved downward _
    (.cons a (.cons b (.cons c (.cons d .nil)))) (by decide) fun p => (all p).symm).1 1 _ _ rfl rfl
  have same : ∀ p, p ∈ [(⟨["a", "b", "c"]⟩ : Path), ⟨["d"]⟩, ⟨["a", "b"]⟩, ⟨["a"]⟩] ↔
      p ∈ (run shelved).contents ∧ p ≠ Path.root := fun p =>
    (List.Perm.mem_iff (by decide)).trans (all p).symm
  have fromBelow := (removals_in_turn shelved upward _
    (.cons c (.cons d (.cons b (.cons a .nil)))) (by decide) same).2 (by decide)
  refine ⟨fromAbove.2.1 ⟨⟨["a", "b", "c"]⟩, ?_, by decide⟩, fromBelow.2.2.2⟩
  decide +kernel

end Tree

end HomeTree
