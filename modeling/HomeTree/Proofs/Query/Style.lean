import HomeTree.Proofs.Contents.Style
import HomeTree.Proofs.Query.Execution
import HomeTree.Proofs.Selector.Selection

namespace HomeTree

def MatchedNode.unstyled (n : MatchedNode) : MatchedNode :=
  { n with style := ∅ }

/-- Without the style and without the text that was read last. -/
def MatchedNode.bare (n : MatchedNode) : MatchedNode :=
  { n with style := ∅, value := none }

/-- Cursors at the same paths. What they have read is the same too, unless styles were read. -/
structure PathCursor.Alike (readsStyle : Prop) (c d : PathCursor) : Prop where
  working : c.working = d.working
  values : ¬readsStyle → c.values = d.values

structure PathOutcome.Alike {α : Type} (R : α → α → Prop) (o o' : PathOutcome α) : Prop where
  contents : o.contents.SameButStyle o'.contents
  changes : o.changes = o'.changes
  result : Paired R o.result o'.result

/-- Answers with the same nodes, but for styles and, where styles are read, the texts read last. -/
structure QueryResult.Alike (readsStyle : Prop) (r r' : QueryResult) : Prop where
  bare : r.map MatchedNode.bare = r'.map MatchedNode.bare
  unstyled : ¬readsStyle → r.map MatchedNode.unstyled = r'.map MatchedNode.unstyled

def CompiledQuery.ReadsStyle (q : CompiledQuery) : Prop :=
  ∃ name, .read .style name ∈ q.transforms

/-- Members answered alike, one by one; those that could not be compiled have the same error. -/
inductive AnsweredAlike : List (Except TreeError CompiledQuery) →
    List (Except TreeError QueryResult) → List (Except TreeError QueryResult) → Prop
  | nil : AnsweredAlike [] [] []
  | uncompiled {e : TreeError} {ms : List (Except TreeError CompiledQuery)}
      {rs rs' : List (Except TreeError QueryResult)} :
      AnsweredAlike ms rs rs' → AnsweredAlike (.error e :: ms) (.error e :: rs) (.error e :: rs')
  | compiled {q : CompiledQuery} {r r' : Except TreeError QueryResult}
      {ms : List (Except TreeError CompiledQuery)} {rs rs' : List (Except TreeError QueryResult)} :
      Paired (QueryResult.Alike q.ReadsStyle) r r' → AnsweredAlike ms rs rs' →
      AnsweredAlike (.ok q :: ms) (r :: rs) (r' :: rs')

namespace Contents.SameButStyle

variable {m n : Contents} {readsStyle : Prop}

theorem single {r s : Except TreeError (Contents × Change)} (h : Paired AlikeBehind r s) :
    Paired AlikeBehind (Contents.single r) (Contents.single s) :=
  h.map fun alike => ⟨alike.1, congrArg (fun c => [c]) alike.2⟩

theorem write (h : m.SameButStyle n) (place : Place) (name value : String) (p : Path) :
    Paired AlikeBehind (m.write place name value p) (n.write place name value p) := by
  cases place with
  | attributes => exact h.setAttribute p name value
  | style => exact h.setStyle p name value

theorem insertSibling (h : m.SameButStyle n) (p : Path) (d : Descriptor) :
    Paired AlikeBehind (m.insertSibling p d) (n.insertSibling p d) := by
  rw [Contents.insertSibling, Contents.insertSibling]
  split
  next => exact .error _
  next above _ => exact h.insertChild above d

/-- An action does alike on contents that differ in styles only. -/
def ActsAlike (act : Contents → Path → Except TreeError (Contents × List Change)) : Prop :=
  ∀ {m n : Contents}, m.SameButStyle n → ∀ p, Paired AlikeBehind (act m p) (act n p)

theorem changeEach {act : Contents → Path → Except TreeError (Contents × List Change)}
    (alike : ActsAlike act) (h : m.SameButStyle n) (ps : List Path) :
    (m.changeEach act ps).Alike Eq (n.changeEach act ps) := by
  induction ps generalizing m n with
  | nil => exact ⟨h, rfl, .ok rfl⟩
  | cons p rest ih =>
    have first := alike h p
    rw [Contents.changeEach, Contents.changeEach]
    generalize act m p = r, act n p = s at first
    cases first with
    | error e => exact ⟨h, rfl, .error e⟩
    | ok behind =>
      have later := ih behind.1
      exact ⟨later.contents, by simp only [behind.2, later.changes], later.result⟩

theorem changing {act : Contents → Path → Except TreeError (Contents × List Change)}
    (alike : ActsAlike act) (h : m.SameButStyle n) (access : Access) (method : String)
    {c d : PathCursor} (hc : c.Alike readsStyle d) :
    (m.changing access method act c).Alike (PathCursor.Alike readsStyle)
      (n.changing access method act d) := by
  cases access with
  | shared => exact ⟨h, rfl, .error _⟩
  | exclusive =>
    have each := changeEach alike h d.working
    rw [Contents.changing, Contents.changing, hc.working]
    exact ⟨each.contents, each.changes, each.result.map fun _ => hc⟩

theorem settle (h : m.SameButStyle n) {c d : PathCursor} (hc : c.Alike readsStyle d) :
    (m.settle c).Alike readsStyle (n.settle d) where
  working := by simp only [Contents.settle, hc.working, h.mem_iff]
  values := by
    intro reads
    simp only [Contents.settle, hc.values reads, h.mem_iff]

theorem enact (h : m.SameButStyle n) (access : Access) {c d : PathCursor}
    (hc : c.Alike readsStyle d) (tr : Transform)
    (reads : ∀ name, tr = .read .style name → readsStyle) :
    (m.enact access tr c).Alike (PathCursor.Alike readsStyle) (n.enact access tr d) := by
  cases tr with
  | read place name =>
    refine ⟨h, rfl, .ok ⟨hc.working, fun silent => ?_⟩⟩
    cases place with
    | attributes =>
      have seen : m.read? .attributes name = n.read? .attributes name :=
        funext (h.read?_attributes_eq name)
      simp only [hc.working, hc.values silent, seen]
    | style => exact absurd (reads name rfl) silent
  | write place name value =>
    exact changing (fun h p => single (h.write place name value p)) h access _ hc
  | append x => exact changing (fun h p => single (h.insertChild p x)) h access _ hc
  | after x => exact changing (fun h p => single (h.insertSibling p x)) h access _ hc
  | empty => exact changing (fun h p => .ok (h.prune p)) h access _ hc
  | parent => exact ⟨h, rfl, .ok ⟨by simp only [hc.working], hc.values⟩⟩
  | children => exact ⟨h, rfl, .ok ⟨by simp only [hc.working, h.children_eq], hc.values⟩⟩

theorem apply (h : m.SameButStyle n) (access : Access) {c d : PathCursor}
    (hc : c.Alike readsStyle d) (tr : Transform)
    (reads : ∀ name, tr = .read .style name → readsStyle) :
    (m.apply access tr c).Alike (PathCursor.Alike readsStyle) (n.apply access tr d) := by
  have acted := h.enact access hc tr reads
  exact ⟨acted.contents, acted.changes, acted.result.map acted.contents.settle⟩

theorem applyAll (h : m.SameButStyle n) (access : Access) {c d : PathCursor}
    (hc : c.Alike readsStyle d) {trs : List Transform}
    (reads : ∀ name, .read .style name ∈ trs → readsStyle) :
    (m.applyAll access trs c).Alike (PathCursor.Alike readsStyle) (n.applyAll access trs d) := by
  induction trs generalizing m n c d with
  | nil => exact ⟨h, rfl, .ok hc⟩
  | cons tr rest ih =>
    have first := h.apply access hc tr fun name eq => reads name (eq ▸ List.mem_cons_self)
    have result := first.result
    rw [Contents.applyAll, Contents.applyAll]
    generalize (m.apply access tr c).result = r, (n.apply access tr d).result = s at result
    cases result with
    | error e => exact ⟨first.contents, first.changes, .error e⟩
    | ok hcursor =>
      have later := ih first.contents hcursor fun name mem =>
        reads name (List.mem_cons_of_mem tr mem)
      exact ⟨later.contents, by simp only [first.changes, later.changes], later.result⟩

theorem map_collect (h : m.SameButStyle n) {c d : PathCursor} (working : c.working = d.working)
    {f : MatchedNode → MatchedNode}
    (shown : ∀ p {x y : Content}, x.unstyled = y.unstyled →
      f ⟨x.kind, x.attributes, x.style, (c.values.lookup p).join⟩ =
        f ⟨y.kind, y.attributes, y.style, (d.values.lookup p).join⟩) :
    (m.collect c).map f = (n.collect d).map f := by
  -- The paths are the same, so only what is shown at each of them has to be compared.
  rw [Contents.collect, Contents.collect, Dict.map_ofList, Dict.map_ofList, List.map_filterMap,
    List.map_filterMap, working]
  congr 2
  funext p
  rcases h.lookup_cases p with ⟨hm, hn⟩ | ⟨x, y, hm, hn, eq⟩
  · rw [hm, hn]
    rfl
  · rw [hm, hn]
    simp only [Option.map_some, shown p eq]

theorem collect (h : m.SameButStyle n) {c d : PathCursor} (hc : c.Alike readsStyle d) :
    QueryResult.Alike readsStyle (m.collect c) (n.collect d) where
  bare := h.map_collect hc.working fun p x y eq => by
    obtain ⟨kind, attributes⟩ := Content.unstyled_eq_iff.mp eq
    simp only [MatchedNode.bare, kind, attributes]
  unstyled := by
    intro silent
    refine h.map_collect hc.working fun p x y eq => ?_
    obtain ⟨kind, attributes⟩ := Content.unstyled_eq_iff.mp eq
    simp only [MatchedNode.unstyled, kind, attributes, hc.values silent]

theorem runMember (h : m.SameButStyle n) (access : Access) (q : CompiledQuery) :
    (m.runMember access (.ok q)).Alike (QueryResult.Alike q.ReadsStyle)
      (n.runMember access (.ok q)) := by
  have start : PathCursor.Alike q.ReadsStyle ⟨m.select q.selector, []⟩ ⟨n.select q.selector, []⟩ :=
    ⟨h.select_eq q.selector, fun _ => rfl⟩
  have all := h.applyAll access start fun name mem => ⟨name, mem⟩
  exact ⟨all.contents, all.changes, all.result.map fun hc => all.contents.collect hc⟩

theorem runMembers (h : m.SameButStyle n) (access : Access)
    (ms : List (Except TreeError CompiledQuery)) :
    let o := m.runMembers access ms
    let o' := n.runMembers access ms
    o.1.SameButStyle o'.1 ∧ AnsweredAlike ms o.2.1 o'.2.1 ∧ o.2.2 = o'.2.2 := by
  induction ms generalizing m n with
  | nil => exact ⟨h, .nil, rfl⟩
  | cons member rest ih =>
    cases member with
    | error e =>
      obtain ⟨contents, answers, changes⟩ := ih h
      exact ⟨contents, .uncompiled answers, changes⟩
    | ok q =>
      have first := h.runMember access q
      obtain ⟨contents, answers, changes⟩ := ih first.contents
      refine ⟨contents, .compiled first.result answers, ?_⟩
      simp only [Contents.runMembers, first.changes, changes]

end Contents.SameButStyle

namespace Tree

/-- The paths of the nodes that a selector picks, in its order. -/
def selectedPaths (t : Tree) (s : Selector) : List (Option Path) :=
  (t.select s).map fun id => (t.entry? id).map Entry.path

theorem Sound.selectedPaths_eq {t : Tree} (ht : t.Sound) (s : Selector) :
    t.selectedPaths s = (t.contents.select s).map some := by
  have standing := ht.select_at s
  rw [selectedPaths, ← List.forall₂_eq_eq_eq, List.forall₂_map_left_iff, List.forall₂_map_right_iff]
  refine standing.imp ?_
  rintro id p ⟨e, he, rfl⟩
  rw [he, Option.map_some]

end Tree

namespace Plan

open HomeTree.Tree (Edit built)

/-- Trees that differ in styles only are alike to every selector and to every group: the same paths
in the same order, the same failures, answers and changes but for styles and what is read of them,
and trees behind that differ in styles only. -/
theorem styles_do_not_interfere (specs : List QuerySpec) (past others : List Edit)
    (h : (built past).contents.SameButStyle (built others).contents) :
    let t := built past
    let u := built others
    let plan := compile specs
    (∀ s, t.selectedPaths s = u.selectedPaths s) ∧
      AnsweredAlike plan.members (plan.execute t).results (plan.execute u).results ∧
      (plan.execute t).changes = (plan.execute u).changes ∧
      (plan.execute t).tree.contents.SameButStyle (plan.execute u).tree.contents ∧
      AnsweredAlike plan.members (plan.executeRead t) (plan.executeRead u) := by
  intro t u plan
  have ht : t.Sound := Tree.built_sound past
  have hu : u.Sound := Tree.built_sound others
  have run : ∀ access, (runMembers access plan.members t).tree.contents.SameButStyle
        (runMembers access plan.members u).tree.contents ∧
      AnsweredAlike plan.members (runMembers access plan.members t).results
        (runMembers access plan.members u).results ∧
      (runMembers access plan.members t).changes = (runMembers access plan.members u).changes := by
    intro access
    have alike := h.runMembers access plan.members
    have left := (runMembers_shows access plan.members ht).1
    have right := (runMembers_shows access plan.members hu).1
    simp only [t, u, left, right] at alike
    exact alike
  obtain ⟨contents, answers, changes⟩ := run .exclusive
  refine ⟨fun s => ?_, answers, changes, contents, (run .shared).2.1⟩
  rw [ht.selectedPaths_eq, hu.selectedPaths_eq, h.select_eq]

/-- One query reads a style; the other writes one, goes on to the parent and removes all below. -/
def styleSpecs : List QuerySpec :=
  [⟨"light", [⟨"css", [.string "color"]⟩]⟩,
    ⟨"[name=lamp]", [⟨"css", [.string "color", .string "blue"]⟩, ⟨"parent", []⟩, ⟨"empty", []⟩]⟩]

theorem styles_do_not_interfere_colored :
    let past : List Edit := [.create "/" "lamp" "light", .setStyle 1 "color" "red"]
    let others : List Edit := [.create "/" "lamp" "light"]
    let plan := compile styleSpecs
    (built past).contents.SameButStyle (built others).contents ∧
      (plan.execute (built past)).results ≠ (plan.execute (built others)).results ∧
      (plan.execute (built past)).changes = (plan.execute (built others)).changes := by
  intro past others plan
  have alike : (built past).contents.SameButStyle (built others).contents := by decide
  obtain ⟨-, -, changes, -⟩ := styles_do_not_interfere styleSpecs past others alike
  exact ⟨alike, by decide +kernel, changes⟩

end Plan

end HomeTree
