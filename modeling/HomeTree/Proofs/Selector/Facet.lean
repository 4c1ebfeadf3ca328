import HomeTree.Tree.Walk

namespace HomeTree

/-- A view of nodes that shows to selectors what the nodes show. -/
structure Shows {μ ν : Type} [Facet μ] [Facet ν] (f : μ → ν) : Prop where
  name : ∀ n, Facet.name (f n) = Facet.name n
  kind : ∀ n, Facet.kind (f n) = Facet.kind n
  attribute? : ∀ n key, Facet.attribute? (f n) key = Facet.attribute? n key

/-- Selectors cannot tell a node in the tree from the summary of it. -/
theorem Entry.shows_summary : Shows Entry.summary :=
  ⟨fun _ => rfl, fun _ => rfl, fun _ _ => rfl⟩

section

variable {μ ν : Type} [Facet μ] [Facet ν] {f : μ → ν}

theorem Shows.read?_eq (h : Shows f) (n : μ) (key : String) :
    Facet.read? (f n) key = Facet.read? n key := by
  rw [Facet.read?, Facet.read?, h.name, h.attribute?]

theorem Filter.accepts_map (h : Shows f) (filter : Filter) (n : μ) :
    filter.accepts (f n) = filter.accepts n := by
  rw [Filter.accepts, Filter.accepts, h.read?_eq]

theorem Step.accepts_map (h : Shows f) (step : Step) (n : μ) :
    step.accepts (f n) = step.accepts n := by
  have filters : (fun x : Filter => x.accepts (f n)) = fun x => x.accepts n :=
    funext fun x => x.accepts_map h n
  rw [Step.accepts, Step.accepts, h.kind, filters]

theorem acceptsAlong_map (h : Shows f) (steps : List Step) (ns : List μ) :
    acceptsAlong steps (ns.map f) = acceptsAlong steps ns := by
  induction steps generalizing ns with
  | nil => simp only [acceptsAlong]
  | cons step steps ih =>
    cases ns with
    | nil => rfl
    | cons n ns => rw [List.map_cons, acceptsAlong, acceptsAlong, step.accepts_map h, ih]

theorem Chain.accepts_map (h : Shows f) (c : Chain) (lineage : List μ) :
    c.accepts (lineage.map f) = c.accepts lineage := by
  rw [Chain.accepts, Chain.accepts, ← List.map_reverse, acceptsAlong_map h]

theorem Selector.accepts_map (h : Shows f) (s : Selector) (lineage : List μ) :
    s.accepts (lineage.map f) = s.accepts lineage := by
  have chains : (fun c : Chain => c.accepts (lineage.map f)) = fun c => c.accepts lineage :=
    funext fun c => c.accepts_map h lineage
  rw [Selector.accepts, Selector.accepts, chains]

end

end HomeTree
