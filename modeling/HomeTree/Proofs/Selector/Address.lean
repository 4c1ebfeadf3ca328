import HomeTree.Proofs.Path.Text
import HomeTree.Proofs.Selector.Canonical
import HomeTree.Proofs.Selector.Selection

namespace HomeTree

theorem joined_cons (separator first : List Char) (others : List (List Char)) :
    joined separator (first :: others) = first ++ others.flatMap (separator ++ ·) := by
  induction others generalizing first with
  | nil => rw [joined, List.flatMap_nil, List.append_nil]
  | cons next others ih =>
    rw [joined, ih, List.flatMap_cons, List.append_assoc, List.append_assoc]
    simp

theorem eq_toList_of_nodup {α : Type} {l : List α} {o : Option α} (nodup : l.Nodup)
    (mem : ∀ a, a ∈ l ↔ o = some a) : l = o.toList := by
  cases o with
  | none =>
    apply List.eq_nil_iff_forall_not_mem.mpr
    intro a ha
    cases (mem a).mp ha
  | some a =>
    have same : l.Perm [a] := by
      apply (List.perm_ext_iff_of_nodup nodup (List.nodup_singleton a)).mpr
      intro b
      rw [mem, List.mem_singleton, Option.some.injEq, eq_comm]
    exact List.perm_singleton.mp same

namespace Step

def ofRoot : Step := ⟨some rootKind, []⟩

def ofName (name : String) : Step := ⟨none, [⟨nameAttribute, some name⟩]⟩

theorem accepts_ofRoot {s : Summary} : ofRoot.accepts s = true ↔ s.kind = rootKind := by
  have kind : ofRoot.accepts s = (rootKind == s.kind) := Bool.and_true _
  rw [kind, beq_iff_eq, eq_comm]

theorem accepts_ofName {name : String} {s : Summary} :
    (ofName name).accepts s = true ↔ s.name = some name := by
  have read : Facet.read? s nameAttribute = s.name := if_pos rfl
  have filter : (ofName name).accepts s = Filter.accepts ⟨nameAttribute, some name⟩ s :=
    Bool.and_true _
  rw [filter, Filter.accepts, read]
  cases s.name with
  | none => simp
  | some actual => exact beq_iff_eq.trans (by rw [Option.some.injEq, eq_comm])

theorem proper_ofRoot : ofRoot.Proper := by decide

theorem proper_ofName (name : String) : (ofName name).Proper where
  kind := fun _ h => by cases h
  names := List.forall_mem_singleton.mpr (show Selector.IsWord nameAttribute.toList by decide)

end Step

namespace Path

def steps (p : Path) : List Step :=
  Step.ofRoot :: p.components.map Step.ofName

@[simp] theorem steps_root : root.steps = [Step.ofRoot] := rfl

@[simp] theorem steps_child (p : Path) (name : String) :
    (p.child name).steps = p.steps ++ [Step.ofName name] := by
  simp [steps]

def selector (p : Path) : Selector :=
  ⟨[⟨p.steps⟩]⟩

theorem proper_selector (p : Path) : p.selector.Proper := by
  refine ⟨List.cons_ne_nil _ _, List.forall_mem_singleton.mpr ⟨List.cons_ne_nil _ _, ?_⟩⟩
  refine List.forall_mem_cons.mpr ⟨Step.proper_ofRoot, fun s hs => ?_⟩
  obtain ⟨name, -, rfl⟩ := List.mem_map.mp hs
  exact Step.proper_ofName name

theorem text_selector (p : Path) : p.selector.text = p.selectorText := by
  have root : Step.ofRoot.chars = rootKind.toList := List.append_nil _
  have named : ∀ name, (Step.ofName name).chars = Filter.chars ⟨nameAttribute, some name⟩ :=
    fun name => List.append_nil _
  have chain : p.selector.chars = joined [' ', '>', ' ']
      (Step.ofRoot.chars :: (p.components.map Step.ofName).map Step.chars) := rfl
  rw [Selector.text, selectorText, chain, joined_cons, root, List.map_map, List.flatMap_map]
  simp only [Function.comp_apply, named]

variable {m : Contents}

/-- The steps of a path go along a lineage, both from their ends, just when it leads to the path. -/
theorem acceptsAlong_steps (closed : m.PrefixClosed)
    (kinds : ∀ q c, m.lookup q = some c → (c.kind = rootKind ↔ q = root)) (p : Path) {q : Path}
    (hq : q ∈ m) : acceptsAlong p.steps.reverse (m.lineage q).reverse = true ↔ q = p := by
  induction p using childInduction generalizing q with
  | root =>
    obtain ⟨c, hc⟩ := Finmap.mem_iff.mp hq
    obtain ⟨above, hlineage⟩ := List.getLast?_eq_some_iff.mp (Contents.getLast?_lineage hc)
    rw [hlineage, List.reverse_concat, steps_root, List.reverse_singleton, acceptsAlong,
      acceptsAlong, Bool.and_true, Step.accepts_ofRoot]
    exact kinds q c hc
  | child p name ih =>
    obtain ⟨c, hc⟩ := Finmap.mem_iff.mp hq
    have summary : m.summary? q = some ⟨q.name?, c.kind, c.attributes⟩ := by
      rw [Contents.summary?, hc]
      rfl
    rw [steps_child, List.reverse_concat]
    -- The last step asks for a name, which the root has not, and leaves the rest to the parent.
    rcases eq_root_or_child q with rfl | ⟨above, other, rfl⟩
    · have unnamed :
          (Step.ofName name).accepts (⟨root.name?, c.kind, c.attributes⟩ : Summary) ≠ true := by
        rw [Ne, Step.accepts_ofName, name?_root]
        simp
      rw [Contents.lineage_root, summary, Option.toList_some, List.reverse_singleton, acceptsAlong,
        Bool.and_eq_true]
      exact iff_of_false (fun h => unnamed h.1) (child_ne_root p name).symm
    · have habove : above ∈ m := closed _ above hq (above_child above other)
      rw [Contents.lineage_child, summary, Option.toList_some, List.reverse_concat, acceptsAlong,
        Bool.and_eq_true, Step.accepts_ofName, ih habove, name?_child, Option.some.injEq, child_inj,
        and_comm]

theorem accepts_selector (closed : m.PrefixClosed)
    (kinds : ∀ q c, m.lookup q = some c → (c.kind = rootKind ↔ q = root)) (p : Path) {q : Path}
    (hq : q ∈ m) : p.selector.accepts (m.lineage q) = true ↔ q = p := by
  have chain : p.selector.accepts (m.lineage q) =
      acceptsAlong p.steps.reverse (m.lineage q).reverse := Bool.or_false _
  rw [chain, acceptsAlong_steps closed kinds p hq]

end Path

namespace Tree

namespace Sound

variable {t : Tree}

theorem kind_root_iff_contents (ht : t.Sound) {q : Path} {c : Content}
    (h : t.contents.lookup q = some c) : c.kind = rootKind ↔ q = Path.root := by
  obtain ⟨id, e, he, rfl, rfl⟩ := ht.lookup_contents_iff.mp h
  exact (ht.kind_root_iff he).trans (ht.path_root_iff he).symm

theorem mem_select_selector (ht : t.Sound) (p : Path) (id : NodeId) :
    id ∈ t.select p.selector ↔ t.lookup? p = some id := by
  rw [ht.mem_select_iff, ht.lookup?_eq_some_iff, contains, Option.isSome_iff_exists]
  have picked : ∀ {e}, t.entry? id = some e →
      (p.selector.accepts (t.lineage id) = true ↔ e.path = p) := by
    intro e he
    rw [ht.lineage_eq he]
    exact Path.accepts_selector ht.prefixClosed_contents (fun q c => ht.kind_root_iff_contents) p
      (ht.mem_contents he)
  constructor
  · rintro ⟨⟨e, he⟩, haccepts⟩
    exact ⟨e, he, (picked he).mp haccepts⟩
  · rintro ⟨e, he, hpath⟩
    exact ⟨⟨e, he⟩, (picked he).mpr hpath⟩

theorem select_selector (ht : t.Sound) (p : Path) :
    t.select p.selector = (t.lookup? p).toList :=
  eq_toList_of_nodup (ht.select_nodup p.selector) (ht.mem_select_selector p)

end Sound

/-- The selector text for a path is refused as the path is. Else it is canonical, and in any tree
it picks the node at the path, or nothing where none is. -/
theorem pathToQuery_picks_one (past : List Edit) (s : String) :
    let t := built past
    (∀ e, pathToQuery s = .error e ↔ Path.parse s = .error e) ∧
    ∀ p, Path.parse s = .ok p →
      ∃ text a, pathToQuery s = .ok text ∧ Selector.parse text = .ok a ∧ a.text = text ∧
        t.select a = (t.lookup? p).toList ∧
        ∀ id, t.lookup? p = some id ↔ ∃ e, t.entry? id = some e ∧ e.path = p := by
  intro t
  have ht : t.Sound := built_sound past
  refine ⟨fun e => ?_, fun p hp => ?_⟩
  · rw [pathToQuery]
    cases Path.parse s with
    | ok p => exact iff_of_false nofun nofun
    | error fault => simp [bind, Except.bind]
  · have text : pathToQuery s = .ok p.selector.text := by
      rw [pathToQuery, hp, p.text_selector]
      rfl
    exact ⟨_, p.selector, text, Selector.parse_text p.proper_selector, rfl, ht.select_selector p,
      fun id => ht.lookup?_eq_some_iff⟩

/-- A node and its child, both with a name that ends a filter and begins another step. -/
def nested : List Edit :=
  [.create "/" "\"] > [x='\\" "node", .create "/\"] > [x='\\" "\"] > [x='\\" "node"]

theorem pathToQuery_picks_one_nested :
    ∃ text a, pathToQuery "/\"] > [x='\\/\"] > [x='\\" = .ok text ∧
      Selector.parse text = .ok a ∧ a.text = text ∧ (built nested).select a = [2] := by
  have path : Path.parse "/\"] > [x='\\/\"] > [x='\\" =
      .ok ⟨["\"] > [x='\\", "\"] > [x='\\"]⟩ := by decide
  have found : (built nested).lookup? ⟨["\"] > [x='\\", "\"] > [x='\\"]⟩ = some 2 := by decide
  obtain ⟨text, a, written, read, canonical, picked, -⟩ :=
    (pathToQuery_picks_one nested "/\"] > [x='\\/\"] > [x='\\").2 _ path
  rw [found] at picked
  exact ⟨text, a, written, read, canonical, picked⟩

end Tree

end HomeTree
