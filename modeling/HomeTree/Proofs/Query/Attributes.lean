import HomeTree.Proofs.Query.Steps
import HomeTree.Proofs.Query.WireForm

namespace HomeTree

/-- All members have a result. -/
def GroupOutcome.Succeeds (o : GroupOutcome) : Prop :=
  ∀ r ∈ o.results, ∃ found, r = .ok found

theorem GroupOutcome.succeeds_iff_all {o : GroupOutcome} :
    o.results.all Except.isOk = true ↔ o.Succeeds := by
  rw [List.all_eq_true, Succeeds]
  refine forall₂_congr fun r _ => ?_
  cases r with
  | error e => exact iff_of_false Bool.false_ne_true nofun
  | ok found => exact iff_of_true rfl ⟨found, rfl⟩

instance (o : GroupOutcome) : Decidable o.Succeeds :=
  decidable_of_iff _ GroupOutcome.succeeds_iff_all

theorem Transform.ofRaw_toRaw {t : Transform} (h : t.Named) : ofRaw t.toRaw = .ok t :=
  stands_iff.mpr (stands_toRaw h)

/-- An attribute without a name cannot be read or written. -/
theorem Transform.ofRaw_unnamed {t : Transform} (rest : List Json) :
    ofRaw ⟨"attr", .string "" :: rest⟩ ≠ .ok t := by
  have unnamed : nameArg (.string "") = .error (.notName (.string "")) := rfl
  match rest with
  | [] => simp [ofRaw, read?, placed, unnamed, bind, Except.bind]
  | [value] => simp [ofRaw, read?, placed, unnamed, bind, Except.bind]
  | value :: other :: more => simp [ofRaw, read?, placed]

namespace CompiledQuery

variable {s : String} {a : Selector} {t : Transform}

theorem compile_single (hs : Selector.parse s = .ok a) (t : Transform) :
    compile ((Query.select s).andThen t).toSpec =
      (Transform.ofRaw t.toRaw).map fun t => ⟨a, [t]⟩ := by
  show (do
    let selector ← Selector.parse s
    let transforms ← [t.toRaw].mapM Transform.ofRaw
    return (⟨selector, transforms⟩ : CompiledQuery)) = _
  rw [hs]
  cases read : Transform.ofRaw t.toRaw with
  | error e => simp [read, bind, Except.bind, Except.map]
  | ok t' => simp [read, bind, Except.bind, Except.map, pure, Except.pure]

end CompiledQuery

namespace Executes

variable {m n k : Contents} {q : Query} {rest : List Query}

theorem cons_iff : Executes m (q :: rest) k ↔ ∃ n, Executes m [q] n ∧ Executes n rest k := by
  constructor
  · intro h
    cases h with
    | cons compiles runs later => exact ⟨_, .cons compiles runs .nil, later⟩
  · rintro ⟨n, first, later⟩
    exact first.append later

theorem nil_iff : Executes m [] k ↔ k = m := by
  constructor
  · intro h
    cases h
    rfl
  · rintro rfl
    exact .nil

/-- Queries that all have a result have been executed. -/
theorem of_results (m : Contents) (qs : List Query)
    (h : ∀ r ∈ (m.runMembers .exclusive (Plan.compile (qs.map Query.toSpec)).members).2.1,
      ∃ found, r = .ok found) :
    Executes m qs (m.runMembers .exclusive (Plan.compile (qs.map Query.toSpec)).members).1 := by
  induction qs generalizing m with
  | nil => exact .nil
  | cons q rest ih =>
    obtain ⟨⟨found, first⟩, others⟩ := List.forall_mem_cons.mp h
    cases compiles : CompiledQuery.compile q.toSpec with
    | error e =>
      rw [compiles] at first
      cases first
    | ok c =>
      rw [compiles] at first
      have runs : m.runMember .exclusive (.ok c) =
          ⟨(m.runMember .exclusive (.ok c)).contents, (m.runMember .exclusive (.ok c)).changes,
            .ok found⟩ := by rw [← first]
      have later := ih (m.runMember .exclusive (CompiledQuery.compile q.toSpec)).contents others
      rw [compiles] at later
      simp only [Plan.compile, List.map_cons, Contents.runMembers, compiles]
      exact .cons compiles runs later

end Executes

/-- A group whose members all succeed has been executed on the contents, and one that has been
executed succeeds. -/
theorem Tree.Sound.executes_iff {t : Tree} (ht : t.Sound) (qs : List Query) {n : Contents} :
    let o := (Plan.compile (qs.map Query.toSpec)).execute t
    Executes t.contents qs n ↔ o.Succeeds ∧ o.tree.contents = n := by
  intro o
  have shows := (Plan.runMembers_shows .exclusive (Plan.compile (qs.map Query.toSpec)).members ht).1
  constructor
  · intro h
    obtain ⟨results, changes, runs, each⟩ := h.runMembers
    rw [runs] at shows
    obtain ⟨contents, rest⟩ := Prod.mk.inj shows
    obtain ⟨same, -⟩ := Prod.mk.inj rest
    refine ⟨fun r hr => ?_, contents.symm⟩
    obtain ⟨i, hi, rfl⟩ := List.getElem_of_mem (show r ∈ results from same ▸ hr)
    exact (List.forall₂_iff_get.mp each).2 i (each.length_eq ▸ hi) hi
  · rintro ⟨succeeds, rfl⟩
    have executes := Executes.of_results t.contents qs
    rw [shows] at executes
    exact executes succeeds

namespace Contents

variable {m n : Contents} {s : String} {p : Path} {c : Content} {d : Descriptor}

/-- A query of one transform that makes a change to each node, where its selector picks one
path. -/
theorem Addresses.executes_iff (h : m.Addresses s p) (hm : m.Shaped) (hp : p ∈ m) {t : Transform}
    {act : Contents → Path → Except TreeError (Contents × Change)}
    (enacts : ∀ c, m.enact .exclusive t c =
      m.changing .exclusive t.method (fun m p => single (act m p)) c)
    (read : Transform.ofRaw t.toRaw = .ok t) :
    Executes m [(Query.select s).andThen t] n ↔ ∃ change, act m p = .ok (n, change) := by
  obtain ⟨a, hs, picked⟩ := h.select hm hp
  have compiles : CompiledQuery.compile ((Query.select s).andThen t).toSpec = .ok ⟨a, [t]⟩ := by
    rw [CompiledQuery.compile_single hs, read]
    rfl
  have inverted : Executes m [(Query.select s).andThen t] n ↔
      ∃ made found, m.runMember .exclusive (.ok ⟨a, [t]⟩) = ⟨n, made, .ok found⟩ := by
    constructor
    · intro executes
      cases executes with
      | cons compiles' runs rest =>
        cases rest
        rw [compiles] at compiles'
        cases compiles'
        exact ⟨_, _, runs⟩
    · rintro ⟨made, found, runs⟩
      exact .cons compiles runs .nil
  rw [inverted]
  cases acts : act m p with
  | error e =>
    have runs : m.runMember .exclusive (.ok ⟨a, [t]⟩) = ⟨m, [], .error e⟩ := by
      simp [runMember, picked, applyAll, apply, enacts, changing, Access.forChange, changeEach,
        single, acts, Except.map]
    simp [runs]
  | ok r =>
    obtain ⟨k, change⟩ := r
    have runs : m.runMember .exclusive (.ok ⟨a, [t]⟩) =
        ⟨k, [change], .ok (k.collect (k.settle ⟨[p], []⟩))⟩ := by
      simp [runMember, picked, applyAll, apply, enacts, changing, Access.forChange, changeEach,
        single, acts, Except.map]
    simp [runs]

/-- What a node must be like to be appended at a path. -/
structure Takes (m : Contents) (p : Path) (d : Descriptor) : Prop where
  name : validComponent d.name = true
  kind : validKind d.kind = true
  writable : d.attributes.get? nameAttribute = none
  fresh : p.child d.name ∉ m

theorem insertChild_iff (hp : p ∈ m) : (∃ change, m.insertChild p d = .ok (n, change)) ↔
    m.Takes p d ∧ n = m.insert (p.child d.name) ⟨d.kind, d.attributes, ∅⟩ := by
  have writable : d.attributes.contains nameAttribute = false ↔
      d.attributes.get? nameAttribute = none := Dict.contains_eq_false_iff
  have takes : m.Takes p d ↔ validComponent d.name = true ∧ validKind d.kind = true ∧
      d.attributes.contains nameAttribute = false ∧ p.child d.name ∉ m :=
    ⟨fun h => ⟨h.name, h.kind, writable.mpr h.writable, h.fresh⟩,
      fun h => ⟨h.1, h.2.1, writable.mp h.2.2.1, h.2.2.2⟩⟩
  rw [takes, insertChild, checkComponent, checkKind]
  by_cases name : validComponent d.name = true
  · by_cases kind : validKind d.kind = true
    · cases readOnly : d.attributes.contains nameAttribute with
      | true => simp [name, kind, hp, bind, Except.bind]
      | false =>
        by_cases there : p.child d.name ∈ m
        · simp [name, kind, hp, there, bind, Except.bind]
        · simp [name, kind, hp, there, bind, Except.bind, eq_comm (a := n)]
    · simp [name, kind, bind, Except.bind]
  · simp [name, bind, Except.bind]

theorem setAttribute_iff (hc : m.lookup p = some c) {name value : String} :
    (∃ change, m.setAttribute p name value = .ok (n, change)) ↔
      name ≠ nameAttribute ∧
        n = m.insert p { c with attributes := c.attributes.insert name value } := by
  rw [setAttribute, hc]
  by_cases readOnly : name = nameAttribute
  · simp [readOnly]
  · simp [readOnly, eq_comm (a := n)]

theorem insert_of_lookup (hc : m.lookup p = some c) : m.insert p c = m := by
  apply Finmap.ext_lookup
  intro q
  by_cases eq : q = p
  · rw [eq, Finmap.lookup_insert, hc]
  · rw [Finmap.lookup_insert_of_ne m eq]

end Contents

/-- The queries that write attributes to one node. -/
def attributeQueries (s : String) (entries : List (String × String)) : List Query :=
  entries.map fun a => (Query.select s).andThen (.write .attributes a.1 a.2)

section

variable {m n : Contents} {p q : Path} {c : Content} {d : Descriptor}

theorem executes_append_iff (hm : m.Shaped) (hp : p ∈ m) :
    Executes m [(Query.select p.selectorText).andThen (.append d)] n ↔
      m.Takes p d ∧ n = m.insert (p.child d.name) ⟨d.kind, d.attributes, ∅⟩ := by
  rw [(Contents.Addresses.selectorText m p).executes_iff hm hp (fun c => rfl)
    (Transform.ofRaw_append d), Contents.insertChild_iff hp]

theorem executes_attribute_iff (hm : m.Shaped) (hc : m.lookup q = some c) (name value : String) :
    Executes m [(Query.select q.selectorText).andThen (.write .attributes name value)] n ↔
      (name ≠ "" ∧ name ≠ nameAttribute) ∧
        n = m.insert q { c with attributes := c.attributes.insert name value } := by
  by_cases named : name = ""
  · refine iff_of_false (fun executes => ?_) fun h => h.1.1 named
    obtain ⟨a, hs, -⟩ := (Contents.Addresses.selectorText m q).select hm (Contents.mem_of_lookup hc)
    cases executes with
    | cons compiles _ _ =>
      rw [CompiledQuery.compile_single hs] at compiles
      obtain ⟨t, read, -⟩ := exists_of_map_eq_ok compiles
      exact Transform.ofRaw_unnamed [.string value] (named ▸ read)
  · have read : Transform.ofRaw (Transform.write .attributes name value).toRaw =
        .ok (.write .attributes name value) := Transform.ofRaw_toRaw named
    rw [(Contents.Addresses.selectorText m q).executes_iff hm (Contents.mem_of_lookup hc)
      (fun c => rfl) read]
    simp only [Contents.write]
    rw [Contents.setAttribute_iff hc]
    exact and_congr_left fun _ => (and_iff_right named).symm

/-- Attributes that are written one by one all come onto the node, unless the name of one is empty
or the node's own. -/
theorem executes_attributeQueries_iff (hm : m.Shaped) {name : String} (hp : p ∈ m)
    (hc : m.lookup (p.child name) = some c) (hkind : c.kind ≠ rootKind)
    (entries : List (String × String)) :
    Executes m (attributeQueries (p.child name).selectorText entries) n ↔
      (∀ a ∈ entries, a.1 ≠ "" ∧ a.1 ≠ nameAttribute) ∧ n = m.insert (p.child name)
        { c with attributes := entries.foldl (fun d a => d.insert a.1 a.2) c.attributes } := by
  induction entries generalizing m c with
  | nil =>
    rw [attributeQueries, List.map_nil, Executes.nil_iff, List.foldl_nil,
      Contents.insert_of_lookup hc]
    simp
  | cons a entries ih =>
    rw [attributeQueries, List.map_cons, Executes.cons_iff, List.forall_mem_cons, List.foldl_cons]
    simp only [executes_attribute_iff hm hc]
    let c' : Content := { c with attributes := c.attributes.insert a.1 a.2 }
    have hm' : Contents.Shaped (m.insert (p.child name) c') := hm.insert_child hp hkind
    have later := ih hm' (Finmap.mem_insert.mpr (.inr hp)) (Finmap.lookup_insert m) hkind
    rw [Finmap.insert_insert] at later
    constructor
    · rintro ⟨k, ⟨ok, rfl⟩, rest⟩
      obtain ⟨others, eq⟩ := later.mp rest
      exact ⟨⟨ok, others⟩, eq⟩
    · rintro ⟨⟨ok, others⟩, eq⟩
      exact ⟨_, ⟨ok, rfl⟩, later.mpr ⟨others, eq⟩⟩

/-- A bare node that is given attributes is one that came with them. -/
theorem executes_given_iff (hm : m.Shaped) (hp : p ∈ m) (hkind : d.kind ≠ rootKind) :
    Executes (m.insert (p.child d.name) ⟨d.kind, ∅, ∅⟩)
        (attributeQueries (p.child d.name).selectorText d.attributes.entries) n ↔
      (d.attributes.get? "" = none ∧ d.attributes.get? nameAttribute = none) ∧
        n = m.insert (p.child d.name) ⟨d.kind, d.attributes, ∅⟩ := by
  let bare : Contents := m.insert (p.child d.name) ⟨d.kind, ∅, ∅⟩
  have hbare : bare.Shaped := hm.insert_child hp hkind
  have there : bare.lookup (p.child d.name) = some ⟨d.kind, ∅, ∅⟩ := Finmap.lookup_insert m
  have given := executes_attributeQueries_iff (n := n) hbare (Finmap.mem_insert.mpr (.inr hp)) there
    hkind d.attributes.entries
  have names : (∀ a ∈ d.attributes.entries, a.1 ≠ "" ∧ a.1 ≠ nameAttribute) ↔
      d.attributes.get? "" = none ∧ d.attributes.get? nameAttribute = none := by
    rw [Dict.get?_eq_none_iff, Dict.get?_eq_none_iff]
    exact forall₂_and
  have written : d.attributes.entries.foldl (fun d a => d.insert a.1 a.2) ∅ = d.attributes :=
    d.attributes.ofList_entries
  rw [names, written, Finmap.insert_insert] at given
  exact given

/-- A node that is appended bare and then given attributes is one appended with them, if none of
them has an empty name. -/
theorem executes_bare_iff (hm : m.Shaped) (hp : p ∈ m) :
    Executes m ((Query.select p.selectorText).andThen (.append { d with attributes := ∅ }) ::
        attributeQueries (p.child d.name).selectorText d.attributes.entries) n ↔
      (m.Takes p d ∧ d.attributes.get? "" = none) ∧
        n = m.insert (p.child d.name) ⟨d.kind, d.attributes, ∅⟩ := by
  have hkind : validKind d.kind = true → d.kind ≠ rootKind := fun h => (Tree.validKind_iff.mp h).2.2
  rw [Executes.cons_iff]
  constructor
  · rintro ⟨k, first, rest⟩
    obtain ⟨takes, rfl⟩ := (executes_append_iff hm hp).mp first
    obtain ⟨⟨unnamed, writable⟩, rfl⟩ := (executes_given_iff hm hp (hkind takes.kind)).mp rest
    exact ⟨⟨⟨takes.name, takes.kind, writable, takes.fresh⟩, unnamed⟩, rfl⟩
  · rintro ⟨⟨takes, unnamed⟩, rfl⟩
    have first := (executes_append_iff (d := { d with attributes := ∅ }) hm hp).mpr
      ⟨⟨takes.name, takes.kind, rfl, takes.fresh⟩, rfl⟩
    exact ⟨_, first,
      (executes_given_iff hm hp (hkind takes.kind)).mpr ⟨⟨unnamed, takes.writable⟩, rfl⟩⟩

/-- Reading an attribute of one node. -/
theorem runMember_read (hm : m.Shaped) (hc : m.lookup q = some c) {name value : String}
    (named : name ≠ "")
    (held : Facet.read? (⟨q.name?, c.kind, c.attributes⟩ : Summary) name = some value) :
    m.runMember .exclusive (CompiledQuery.compile
        ((Query.select q.selectorText).andThen (.read .attributes name)).toSpec) =
      ⟨m, [], .ok
        ((∅ : QueryResult).insert q.text ⟨c.kind, c.attributes, c.style, some value⟩)⟩ := by
  have hq := Contents.mem_of_lookup hc
  obtain ⟨a, hs, picked⟩ := (Contents.Addresses.selectorText m q).select hm hq
  have read : Transform.ofRaw (Transform.read .attributes name).toRaw =
      .ok (.read .attributes name) := Transform.ofRaw_toRaw named
  have holds : m.read? .attributes name q = some value := by
    rw [Contents.read?, hc]
    exact held
  have alone (x : MatchedNode) : .ofList [(q.text, x)] = (∅ : QueryResult).insert q.text x := rfl
  rw [CompiledQuery.compile_single hs, read]
  simp [Except.map, Contents.runMember, picked, Contents.applyAll, Contents.apply,
    Contents.enact, Contents.looking, Contents.settle, hq, holds, Contents.collect, hc,
    List.eraseDups_cons, alone]

end

/-- On the arena a query alone comes to what it comes to on the contents. -/
theorem Tree.Sound.execute_single {t : Tree} (ht : t.Sound) (spec : QuerySpec) :
    ((Plan.compile [spec]).execute t).results =
      [(t.contents.runMember .exclusive (CompiledQuery.compile spec)).result] := by
  have shows := (Plan.runMembers_shows .exclusive (Plan.compile [spec]).members ht).1
  exact (congrArg (fun o => o.2.1) shows).symm

theorem pathToQuery_text {p : Path} (h : p.Valid) : pathToQuery p.text = .ok p.selectorText := by
  rw [pathToQuery, Path.parse_text h]
  rfl

/-- An attribute that has a name, other than the name of its node, can be read and written. -/
theorem Tree.Sound.attribute_used {t : Tree} (ht : t.Sound) {q : Path} {c : Content}
    (hc : t.contents.lookup q = some c) {name value : String} (other : name ≠ nameAttribute)
    (held : c.attributes.get? name = some value) :
    let read := (Query.select q.selectorText).andThen (.read .attributes name)
    let write := fun text => (Query.select q.selectorText).andThen (.write .attributes name text)
    (name ≠ "" → ((Plan.compile [read.toSpec]).execute t).results =
      [.ok ((∅ : QueryResult).insert q.text ⟨c.kind, c.attributes, c.style, some value⟩)]) ∧
      ∀ text, ((Plan.compile [(write text).toSpec]).execute t).Succeeds ↔ name ≠ "" := by
  intro read write
  refine ⟨fun named => ?_, fun text => ?_⟩
  · rw [ht.execute_single, runMember_read ht.shaped_contents hc named]
    rw [Facet.read?, if_neg other]
    exact held
  · have written {n : Contents} := (ht.executes_iff [write text] (n := n)).symm.trans
      (executes_attribute_iff ht.shaped_contents hc name text)
    exact ⟨fun succeeds => (written.mp ⟨succeeds, rfl⟩).1.1,
      fun named => (written.mpr ⟨⟨named, other⟩, rfl⟩).1⟩

namespace Tree

/-- A node that comes with attributes is the same as one that comes bare and is given them by as
many queries, except that these cannot give it one without a name: the queries all succeed if and
only if the node can be appended with its attributes and all of these have names, and then they
leave the same contents. Any attribute of the new node that has a name can be read and written; one
that has none can not. -/
theorem attributes_appended_or_written (past : List Call) (p : Path) (d : Descriptor)
    (hp : p ∈ (run past).contents) :
    let q := p.child d.name
    let whole := (Query.select p.selectorText).andThen (.append d)
    let bare := (Query.select p.selectorText).andThen (.append { d with attributes := ∅ })
    let writes := attributeQueries q.selectorText d.attributes.entries
    let one := (Plan.compile [whole.toSpec]).execute (run past)
    let two := (Plan.compile ((bare :: writes).map Query.toSpec)).execute (run past)
    pathToQuery p.text = .ok p.selectorText ∧
      (validComponent d.name = true → pathToQuery q.text = .ok q.selectorText) ∧
      (two.Succeeds ↔ one.Succeeds ∧ d.attributes.get? "" = none) ∧
      (two.Succeeds → one.tree.contents = two.tree.contents) ∧
      (one.Succeeds → ∀ name value, d.attributes.get? name = some value →
        let read := (Query.select q.selectorText).andThen (.read .attributes name)
        let write := fun text =>
          (Query.select q.selectorText).andThen (.write .attributes name text)
        (name ≠ "" → ((Plan.compile [read.toSpec]).execute one.tree).results =
          [.ok ((∅ : QueryResult).insert q.text ⟨d.kind, d.attributes, ∅, some value⟩)]) ∧
        ∀ text, ((Plan.compile [(write text).toSpec]).execute one.tree).Succeeds ↔ name ≠ "") := by
  intro q whole bare writes one two
  have ht : Sound (run past) := run_sound past
  have hm := ht.shaped_contents
  obtain ⟨id, e, he, hpath⟩ := ht.mem_contents_iff.mp hp
  have valid : p.Valid := hpath ▸ (ht.checked he).names
  have validChild : validComponent d.name = true → q.Valid := by
    intro hname name hmem
    rcases List.mem_append.mp hmem with above | own
    · exact valid name above
    · exact List.mem_singleton.mp own ▸ hname
  have appended : ∀ {n}, one.Succeeds ∧ one.tree.contents = n ↔
      (run past).contents.Takes p d ∧
        n = (run past).contents.insert q ⟨d.kind, d.attributes, ∅⟩ := fun {n} =>
    (ht.executes_iff [whole]).symm.trans (executes_append_iff hm hp)
  have given : ∀ {n}, two.Succeeds ∧ two.tree.contents = n ↔
      ((run past).contents.Takes p d ∧ d.attributes.get? "" = none) ∧
        n = (run past).contents.insert q ⟨d.kind, d.attributes, ∅⟩ := fun {n} =>
    (ht.executes_iff (bare :: writes)).symm.trans (executes_bare_iff hm hp)
  have takes : one.Succeeds ↔ (run past).contents.Takes p d :=
    ⟨fun h => (appended.mp ⟨h, rfl⟩).1, fun h => (appended.mpr ⟨h, rfl⟩).1⟩
  refine ⟨pathToQuery_text valid, fun h => pathToQuery_text (validChild h), ?_, fun h => ?_,
    fun h => ?_⟩
  · rw [takes]
    exact ⟨fun h => (given.mp ⟨h, rfl⟩).1, fun h => (given.mpr ⟨h, rfl⟩).1⟩
  · obtain ⟨⟨hd, -⟩, contents⟩ := given.mp ⟨h, rfl⟩
    exact (appended.mpr ⟨hd, rfl⟩).2.trans contents.symm
  · intro name value held
    obtain ⟨hd, contents⟩ := appended.mp ⟨h, rfl⟩
    have sound : one.tree.Sound := (Plan.execute_steps _ ht).sound ht
    have there : one.tree.contents.lookup q = some ⟨d.kind, d.attributes, ∅⟩ := by
      rw [contents, Finmap.lookup_insert]
    have other : name ≠ nameAttribute := by
      rintro rfl
      rw [hd.writable] at held
      cases held
    exact sound.attribute_used there other held

/-- A bulb for a lamp. -/
def bulb (attributes : Dict String) : Descriptor :=
  ⟨"bulb", "b", attributes⟩

theorem attributes_appended_or_written_bulb :
    let d := bulb (.ofList [("on", "1"), ("hue", "")])
    let q : Path := ⟨["lamp", "b"]⟩
    let whole := (Query.select (Path.selectorText ⟨["lamp"]⟩)).andThen (.append d)
    let one := (Plan.compile [whole.toSpec]).execute (run furnished)
    let read := (Query.select q.selectorText).andThen (.read .attributes "hue")
    (run furnished).contents.lookup ⟨["lamp"]⟩ = some ⟨"light", ∅, ∅⟩ ∧ one.Succeeds ∧
      ((Plan.compile [read.toSpec]).execute one.tree).results =
        [.ok ((∅ : QueryResult).insert "/lamp/b" ⟨"bulb", d.attributes, ∅, some ""⟩)] := by
  intro d q whole one read
  have lamp : (run furnished).contents.lookup ⟨["lamp"]⟩ = some ⟨"light", ∅, ∅⟩ := by
    decide +kernel
  have appended : one.Succeeds := by decide +kernel
  obtain ⟨-, -, -, -, held⟩ :=
    attributes_appended_or_written furnished ⟨["lamp"]⟩ d (Contents.mem_of_lookup lamp)
  have text : q.text = "/lamp/b" := by decide
  rw [← text]
  exact ⟨lamp, appended, (held appended "hue" "" (by decide)).1 (by decide)⟩

/-- A node can be appended with an attribute that has no name. Appended bare it cannot be given
that, and what it has come with cannot be read. -/
theorem attribute_without_name_appended :
    let past : List Call := [.create "/" "lamp" "light"]
    let d := bulb (.ofList [("", "x")])
    let above := Query.select (Path.selectorText ⟨["lamp"]⟩)
    let own := Query.select (Path.selectorText ⟨["lamp", "b"]⟩)
    let one := (Plan.compile [(above.andThen (.append d)).toSpec]).execute (run past)
    let bare := (above.andThen (.append (bulb ∅))).toSpec
    let write := (own.andThen (.write .attributes "" "x")).toSpec
    let read := (own.andThen (.read .attributes "")).toSpec
    pathToQuery "/lamp" = .ok (Path.selectorText ⟨["lamp"]⟩) ∧
      pathToQuery "/lamp/b" = .ok (Path.selectorText ⟨["lamp", "b"]⟩) ∧
      one.Succeeds ∧ one.tree.contents.lookup ⟨["lamp", "b"]⟩ = some ⟨"bulb", d.attributes, ∅⟩ ∧
      ¬((Plan.compile [bare, write]).execute (run past)).Succeeds ∧
      ¬((Plan.compile [write]).execute one.tree).Succeeds ∧
      ¬((Plan.compile [read]).execute one.tree).Succeeds := by
  decide +kernel

end Tree

end HomeTree
