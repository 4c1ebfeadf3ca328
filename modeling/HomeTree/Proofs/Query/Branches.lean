import HomeTree.Proofs.Selector.Nesting

namespace HomeTree

namespace Json

/-- The values right below an object or array, with the names of their nodes. -/
def branches : Json → List (String × Json)
  | .object members => members.map fun m => (propertyName m.1, m.2)
  | .array items => items.mapIdx fun i item => (toString i, item)
  | _ => []

def isGroup : Json → Bool
  | .object _ | .array _ => true
  | _ => false

theorem branches_of_not_isGroup {v : Json} (h : v.isGroup = false) : v.branches = [] := by
  cases v with
  | object | array => cases h
  | _ => rfl

theorem sizeOf_branch_lt {v : Json} {b : String × Json} (h : b ∈ v.branches) :
    sizeOf b.2 < sizeOf v := by
  cases v with
  | object members =>
    obtain ⟨⟨key, value⟩, hm, rfl⟩ := List.mem_map.mp h
    have := List.sizeOf_lt_of_mem hm
    simp only [Prod.mk.sizeOf_spec, Json.object.sizeOf_spec] at this ⊢
    omega
  | array items =>
    obtain ⟨i, hi, rfl⟩ := List.mem_mapIdx.mp h
    have := List.sizeOf_lt_of_mem (List.getElem_mem hi)
    simp only [Json.array.sizeOf_spec]
    omega
  | _ => cases h

/-- What holds of a value as soon as it holds of its branches holds of all values. -/
theorem branchInduction {motive : Json → Prop}
    (step : ∀ v, (∀ b ∈ v.branches, motive b.2) → motive v) (v : Json) : motive v :=
  step v fun b hb =>
    have := sizeOf_branch_lt hb
    branchInduction step b.2
termination_by sizeOf v

end Json

theorem memberQueries_eq (s : String) (members : List (String × Json)) :
    memberQueries s members = (members.map fun m => (propertyName m.1, m.2)).flatMap
      fun b => valueQueries s b.1 b.2 := by
  induction members with
  | nil => rw [memberQueries, List.map_nil, List.flatMap_nil]
  | cons m members ih =>
    obtain ⟨key, value⟩ := m
    rw [memberQueries, ih, List.map_cons, List.flatMap_cons]

theorem itemQueries_eq (s : String) (position : Nat) (items : List Json) :
    itemQueries s position items =
      (items.mapIdx fun i item => (toString (position + i), item)).flatMap
        fun b => valueQueries s b.1 b.2 := by
  induction items generalizing position with
  | nil => rw [itemQueries, List.mapIdx_nil, List.flatMap_nil]
  | cons item items ih =>
    rw [itemQueries, ih, List.mapIdx_cons, List.flatMap_cons]
    simp only [Nat.add_zero, Nat.add_assoc, Nat.add_comm 1]

theorem propertyQueries_eq (s : String) (v : Json) :
    propertyQueries s v = v.branches.flatMap fun b => valueQueries s b.1 b.2 := by
  cases v with
  | object members => rw [propertyQueries, memberQueries_eq, Json.branches]
  | array items =>
    rw [propertyQueries, itemQueries_eq, Json.branches]
    simp only [Nat.zero_add]
  | _ => rw [propertyQueries, Json.branches, List.flatMap_nil] <;> simp

theorem valueQueries_of_isGroup {s name : String} {v : Json} (h : v.isGroup = true) :
    valueQueries s name v = addGroup s name :: propertyQueries (groupSelector s name) v := by
  cases v with
  | object members => rw [valueQueries, propertyQueries]
  | array items => rw [valueQueries, propertyQueries]
  | _ => cases h

theorem valueQueries_of_not_isGroup {s name : String} {v : Json} (h : v.isGroup = false) :
    valueQueries s name v = [addProperty s name (scalarText v)] := by
  cases v with
  | object | array => cases h
  | _ => rw [valueQueries] <;> simp

/-- One query under the selector itself, then those for the contents, under the group's. -/
theorem exists_valueQueries (s name : String) (v : Json) :
    ∃ first, first.selector = s ∧
      valueQueries s name v = first :: propertyQueries (groupSelector s name) v := by
  cases h : v.isGroup with
  | true => exact ⟨_, rfl, valueQueries_of_isGroup h⟩
  | false =>
    refine ⟨addProperty s name (scalarText v), rfl, ?_⟩
    rw [valueQueries_of_not_isGroup h, propertyQueries_eq, Json.branches_of_not_isGroup h,
      List.flatMap_nil]

/-- The nodes of a lineage before those below are a group with a name and others above it with the
property. -/
def InGroup (name : String) (P : List Summary → Prop) (lineage below : List Summary) : Prop :=
  ∃ above group, lineage = above ++ group :: below ∧
    group.kind = "property-group" ∧ group.name = some name ∧ P above

theorem Chain.accepts_concat_ofGroup {c : Chain} (hne : c.steps ≠ []) {name : String}
    {lineage : List Summary} : (c.concat (.ofGroup name)).accepts lineage = true ↔
      InGroup name (c.accepts · = true) lineage [] := by
  rw [accepts_concat hne]
  simp only [Step.accepts_ofGroup, and_assoc]
  rfl

/-- Everything under a selector, however deep, is reached through an alternative before the last,
or where the last one leads and below. -/
theorem propertyQueries_lead {others : List Chain} {P : List Summary → Prop}
    (below : ∀ {lineage x}, P lineage → P (lineage ++ [x])) (v : Json) :
    ∀ {s : String} {last : Chain}, Selector.parse s = .ok ⟨others ++ [last]⟩ →
    (∀ lineage, last.accepts lineage = true → P lineage) → ∀ q ∈ propertyQueries s v,
    ∃ b, Selector.parse q.selector = .ok b ∧ ∀ lineage, b.accepts lineage = true →
      (∃ c ∈ others, c.accepts lineage = true) ∨ P lineage := by
  induction v using Json.branchInduction with
  | step v ih =>
    intro s last hs hlast q hq
    have hne : last.steps ≠ [] := ((Selector.proper_of_parse hs).2 last (by simp)).1
    rw [propertyQueries_eq] at hq
    obtain ⟨b, hb, hq⟩ := List.mem_flatMap.mp hq
    obtain ⟨first, hfirst, hqueries⟩ := exists_valueQueries s b.1 b.2
    rw [hqueries] at hq
    rcases List.mem_cons.mp hq with rfl | hq
    · refine ⟨_, by rw [hfirst, hs], fun lineage h => ?_⟩
      obtain ⟨c, hc, haccepts⟩ := List.any_eq_true.mp h
      rcases List.mem_append.mp hc with hc | hc
      · exact .inl ⟨c, hc, haccepts⟩
      · rw [List.mem_singleton.mp hc] at haccepts
        exact .inr (hlast lineage haccepts)
    · refine ih b hb (parse_groupSelector hs b.1) (fun lineage h => ?_) q hq
      obtain ⟨above, x, rfl, -, -, habove⟩ := (Chain.accepts_concat_ofGroup hne).mp h
      exact below (hlast above habove)

/-- The selector for the values nested under a name parses. It adds the group to the last
alternative and leaves the others, so that it picks groups under the selector, and nothing is
appended but in them, when there is no other alternative. -/
theorem nested_selector_extends_last_alternative (s : String) (a : Selector)
    (hs : Selector.parse s = .ok a) (name : String) :
    ∃ others last b, a.chains = others ++ [last] ∧
      Selector.parse (groupSelector s name) = .ok b ∧
      (∀ lineage, b.accepts lineage = true ↔
        (∃ c ∈ others, c.accepts lineage = true) ∨
          InGroup name (last.accepts · = true) lineage []) ∧
      (others = [] → ∀ lineage, b.accepts lineage = true ↔
        InGroup name (a.accepts · = true) lineage []) ∧
      ∀ v, ∃ first, valueQueries s name v = first :: propertyQueries (groupSelector s name) v ∧
        first.selector = s ∧ ∀ q ∈ propertyQueries (groupSelector s name) v,
          ∃ c, Selector.parse q.selector = .ok c ∧ ∀ lineage, c.accepts lineage = true →
            (∃ c ∈ others, c.accepts lineage = true) ∨
              ∃ below, InGroup name (last.accepts · = true) lineage below := by
  obtain ⟨chains⟩ := a
  have proper := Selector.proper_of_parse hs
  obtain ⟨others, last, rfl⟩ := (List.eq_nil_or_concat' chains).resolve_left proper.1
  have hne : last.steps ≠ [] := (proper.2 last (by simp)).1
  have hb := parse_groupSelector hs name
  have haccepts : ∀ lineage,
      Selector.accepts ⟨others ++ [last.concat (.ofGroup name)]⟩ lineage = true ↔
        (∃ c ∈ others, c.accepts lineage = true) ∨
          InGroup name (last.accepts · = true) lineage [] := by
    intro lineage
    rw [← Chain.accepts_concat_ofGroup hne]
    simp [Selector.accepts]
  refine ⟨others, last, _, rfl, hb, haccepts, ?_, fun v => ?_⟩
  · rintro rfl lineage
    simpa [Selector.accepts] using haccepts lineage
  · obtain ⟨first, hfirst, hqueries⟩ := exists_valueQueries s name v
    have deeper : ∀ {lineage x}, (∃ below, InGroup name (last.accepts · = true) lineage below) →
        ∃ below, InGroup name (last.accepts · = true) (lineage ++ [x]) below := by
      rintro lineage x ⟨below, above, group, rfl, h⟩
      exact ⟨below ++ [x], above, group, by simp, h⟩
    exact ⟨first, hqueries, hfirst, propertyQueries_lead deeper v hb fun lineage h =>
      ⟨[], (Chain.accepts_concat_ofGroup hne).mp h⟩⟩

/-- A quoted comma is no alternative, and blanks may stand behind the selector. -/
theorem nested_selector_extends_quoted_comma :
    ∃ a b, Selector.parse "light > [mode='a, b'] " = .ok a ∧
      Selector.parse "light > [mode='a, b']  > property-group[name=\"\\\"k\\\\\"]" = .ok b ∧
      ∀ lineage, b.accepts lineage = true ↔
        InGroup "\"k\\" (a.accepts · = true) lineage [] := by
  let a : Selector := ⟨[⟨[⟨some "light", []⟩, ⟨none, [⟨"mode", some "a, b"⟩]⟩]⟩]⟩
  have parsed : Selector.parse "light > [mode='a, b'] " = .ok a := by decide +kernel
  obtain ⟨others, last, b, hchains, hb, -, haccepts, -⟩ :=
    nested_selector_extends_last_alternative "light > [mode='a, b'] " a parsed "\"k\\"
  have alone : others = [] := by
    cases others with
    | nil => rfl
    | cons c cs => cases cs <;> cases hchains
  exact ⟨a, b, parsed, hb, haccepts alone⟩

/-- With two alternatives the selector for the values nested under a key still picks what the first
one picks, and a value nested under the key is appended there instead of in the group. -/
theorem nested_selector_misses_group :
    ∃ a b, Selector.parse "a, b" = .ok a ∧ Selector.parse (groupSelector "a, b" "k") = .ok b ∧
      (∃ lineage, b.accepts lineage = true ∧ ¬InGroup "k" (a.accepts · = true) lineage []) ∧
      let queries := propertyQueries "a, b" (.object [("k", .object [("x", .string "1")])])
      let t := ((Plan.compile (queries.map Query.toSpec)).execute
        (Tree.built [.create "/" "n" "a"])).tree
      t.lookup? ⟨["n", "x"]⟩ ≠ none ∧ t.lookup? ⟨["n", "k", "x"]⟩ = none := by
  refine ⟨⟨[⟨[⟨some "a", []⟩]⟩, ⟨[⟨some "b", []⟩]⟩]⟩,
    ⟨[⟨[⟨some "a", []⟩]⟩, ⟨[⟨some "b", []⟩, .ofGroup "k"]⟩]⟩, by decide +kernel, by decide +kernel,
    ⟨[⟨none, rootKind, ∅⟩, ⟨some "n", "a", ∅⟩], by decide, ?_⟩, by decide +kernel⟩
  rintro ⟨above, group, hlineage, hkind, -⟩
  have hgroup : some (⟨some "n", "a", ∅⟩ : Summary) = some group := by
    simpa using congrArg List.getLast? hlineage
  cases hgroup
  exact absurd hkind (by decide)

end HomeTree
