import HomeTree.Proofs.Contents.Growth
import HomeTree.Proofs.Message.Fields
import HomeTree.Proofs.Query.Branches
import HomeTree.Proofs.Query.Execution
import HomeTree.Proofs.Tree.Reachable

namespace HomeTree

open List (Forall₂)

namespace Json

/-- What the attribute of a property says: a string as it is, nothing for null, else JSON. -/
def valueText : Json → String
  | .string s => s
  | .null => ""
  | .bool true => "true"
  | .bool false => "false"
  | .number (.integer n) => toString n
  | j => j.text

/-- What the node for a value holds. -/
def content (v : Json) : Content :=
  if v.isGroup then ⟨"property-group", ∅, ∅⟩
  else ⟨"property", (∅ : Dict String).insert "value" v.valueText, ∅⟩

/-- In each object, however deep, the keys make distinct names that can be components of paths. -/
inductive WellNamed : Json → Prop
  | object {members : List (String × Json)} :
      (members.map fun m => propertyName m.1).Nodup →
      (∀ m ∈ members, validComponent (propertyName m.1) = true) →
      (∀ m ∈ members, WellNamed m.2) → WellNamed (.object members)
  | array {items : List Json} : (∀ item ∈ items, WellNamed item) → WellNamed (.array items)
  | scalar {v : Json} : v.isGroup = false → WellNamed v

/-- The value at the end of a row of names, one at least. -/
inductive Reaches : Json → List String → Json → Prop
  | branch {v : Json} {b : String × Json} : b ∈ v.branches → Reaches v [b.1] b.2
  | deeper {v x : Json} {b : String × Json} {names : List String} :
      b ∈ v.branches → Reaches b.2 names x → Reaches v (b.1 :: names) x

/-- A node for a value inside another one, which is at a path. -/
def Spells (v : Json) (p q : Path) (c : Content) : Prop :=
  ∃ names x, v.Reaches names x ∧ q = ⟨p.components ++ names⟩ ∧ c = x.content

theorem text_integer (n : Int) : (number (.integer n)).text = toString n := by
  have chars : (number (.integer n)).chars =
      if n < 0 then '-' :: Nat.toDigits 10 n.natAbs else Nat.toDigits 10 n.natAbs := by
    rw [Json.chars]
    rfl
  apply String.toList_injective
  rw [text, String.toList_ofList, chars]
  cases n with
  | ofNat n =>
    have plain : toString (Int.ofNat n) = toString n := rfl
    rw [if_neg (by simp), plain]
    simp
  | negSucc n =>
    have minus : toString (Int.negSucc n) = "-" ++ toString (n + 1) := rfl
    rw [if_pos (Int.negSucc_lt_zero n), minus]
    simp

theorem scalarText_eq {v : Json} (h : v.isGroup = false) : scalarText v = v.valueText := by
  cases v with
  | object | array => cases h
  | string | null => rfl
  | bool b => cases b <;> decide
  | number n =>
    cases n with
    | integer n => exact text_integer n
    | double => rfl

/-- The node for a branch, or one for a value inside it. -/
def BranchSpells (b : String × Json) (p q : Path) (c : Content) : Prop :=
  (q = p.child b.1 ∧ c = b.2.content) ∨ b.2.Spells (p.child b.1) q c

theorem BranchSpells.covers {b : String × Json} {p q : Path} {c : Content}
    (h : BranchSpells b p q c) : (p.child b.1).Covers q := by
  rcases h with ⟨rfl, -⟩ | ⟨names, x, -, rfl, -⟩
  · exact Path.covers_self _
  · exact List.prefix_append _ _

theorem spells_iff {v : Json} {p q : Path} {c : Content} :
    v.Spells p q c ↔ ∃ b ∈ v.branches, BranchSpells b p q c := by
  constructor
  · rintro ⟨names, x, h, rfl, rfl⟩
    cases h with
    | branch hb => exact ⟨_, hb, .inl ⟨rfl, rfl⟩⟩
    | deeper hb hx => exact ⟨_, hb, .inr ⟨_, x, hx, by simp, rfl⟩⟩
  · rintro ⟨b, hb, ⟨rfl, rfl⟩ | ⟨names, x, hx, rfl, rfl⟩⟩
    · exact ⟨_, _, .branch hb, rfl, rfl⟩
    · exact ⟨_, _, .deeper hb hx, by simp, rfl⟩

theorem not_spells_of_not_isGroup {v : Json} (h : v.isGroup = false) {p q : Path} {c : Content} :
    ¬v.Spells p q c := by
  rw [spells_iff, branches_of_not_isGroup h]
  simp

theorem toString_injective {i j : Nat} (h : toString i = toString j) : i = j := by
  have digits : Nat.toDigits 10 i = Nat.toDigits 10 j := by
    simpa using congrArg String.toList h
  calc
    i = Nat.ofDigitChars 10 (Nat.toDigits 10 i) 0 := Nat.ofDigitChars_ten_toDigits.symm
    _ = Nat.ofDigitChars 10 (Nat.toDigits 10 j) 0 := by rw [digits]
    _ = j := Nat.ofDigitChars_ten_toDigits

theorem validComponent_toString (i : Nat) : validComponent (toString i) = true := by
  have digits : ∀ c ∈ (toString i).toList, c.isDigit = true := fun c hc =>
    Nat.isDigit_of_mem_toDigits (Nat.succ_pos 9) (Nat.le_refl 10) (by simpa using hc)
  have no : ∀ {c : Char}, c.isDigit = false → c ∉ (toString i).toList := by
    intro c hc hmem
    rw [digits c hmem] at hc
    cases hc
  rw [Tree.validComponent_iff]
  refine ⟨fun h => ?_, no (by decide), fun h => ?_, fun h => ?_⟩
  · have hne : (toString i).toList ≠ [] := by simp [Nat.toDigits_ne_nil]
    exact hne (by rw [h]; rfl)
  · have dot : '.' ∈ (toString i).toList := by rw [h]; decide
    exact no (by decide) dot
  · have dot : '.' ∈ (toString i).toList := by rw [h]; decide
    exact no (by decide) dot

/-- Positions are names as good as keys. -/
theorem WellNamed.branches {v : Json} (h : v.WellNamed) : (v.branches.map Prod.fst).Nodup ∧
    ∀ b ∈ v.branches, validComponent b.1 = true ∧ b.2.WellNamed := by
  cases h with
  | object nodup valid each =>
    refine ⟨by simpa [Json.branches, Function.comp_def] using nodup, fun b hb => ?_⟩
    obtain ⟨m, hm, rfl⟩ := List.mem_map.mp hb
    exact ⟨valid m hm, each m hm⟩
  | array each =>
    constructor
    · refine List.pairwise_iff_getElem.mpr fun i j hi hj hlt heq => Nat.ne_of_lt hlt ?_
      exact toString_injective (by simpa [Json.branches] using heq)
    · intro b hb
      obtain ⟨i, hi, rfl⟩ := List.mem_mapIdx.mp hb
      exact ⟨validComponent_toString i, each _ (List.getElem_mem hi)⟩
  | scalar hscalar => simp [branches_of_not_isGroup hscalar]

end Json

theorem Descriptor.ofJson?_toJson (d : Descriptor) : ofJson? d.toJson = some d := by
  have texts := Json.dict?_ofTexts d.attributes
  simp [ofJson?, toJson, Json.Record.ofJson?, Json.Record.required?, Json.Record.optional?,
    List.lookup_cons, texts]

theorem Transform.ofRaw_append (d : Descriptor) : ofRaw (append d).toRaw = .ok (.append d) := by
  have read : read? "append" [d.toJson] = .ok (.append d) := by
    have described : described append [d.toJson] = .ok (.append d) := by
      rw [described, d.ofJson?_toJson]
    simpa [read?] using described
  have raw : (append d).toRaw = ⟨"append", [d.toJson]⟩ := rfl
  rw [raw, ofRaw, read]

/-- Queries one after the other, none of which fails. -/
inductive Executes : Contents → List Query → Contents → Prop
  | nil {m : Contents} : Executes m [] m
  | cons {m n k : Contents} {q : Query} {compiled : CompiledQuery} {changes : List Change}
      {found : QueryResult} {rest : List Query} :
      CompiledQuery.compile q.toSpec = .ok compiled →
      m.runMember .exclusive (.ok compiled) = ⟨n, changes, .ok found⟩ →
      Executes n rest k → Executes m (q :: rest) k

namespace Executes

variable {m n k : Contents} {qs others : List Query}

theorem append (h : Executes m qs n) (h' : Executes n others k) : Executes m (qs ++ others) k := by
  induction h with
  | nil => exact h'
  | cons compiles runs _ ih => exact .cons compiles runs (ih h')

theorem runMembers (h : Executes m qs n) : ∃ results changes,
    m.runMembers .exclusive (Plan.compile (qs.map Query.toSpec)).members = (n, results, changes) ∧
      Forall₂ (fun _ r => ∃ found, r = .ok found) qs results := by
  induction h with
  | nil => exact ⟨[], [], rfl, .nil⟩
  | cons compiles runs _ ih =>
    obtain ⟨results, changes, later, each⟩ := ih
    simp only [Plan.compile, List.map_cons, compiles, Contents.runMembers, runs] at later ⊢
    exact ⟨_, _, by rw [later], .cons ⟨_, rfl⟩ each⟩

end Executes

namespace Contents

variable {m : Contents} {s : String} {p : Path}

theorem Addresses.select (h : m.Addresses s p) (hm : m.Shaped) (hp : p ∈ m) :
    ∃ a, Selector.parse s = .ok a ∧ m.select a = [p] := by
  obtain ⟨c, hs, picks⟩ := h
  refine ⟨_, hs, eq_toList_of_nodup (o := some p) ?_ fun q => ?_⟩
  · refine (m.paths_sorted.filter _).imp fun hlt => ?_
    rintro rfl
    exact lt_irrefl _ hlt
  · have one : Selector.accepts ⟨[c]⟩ (m.lineage q) = c.accepts (m.lineage q) := Bool.or_false _
    rw [Contents.select, List.mem_filter, mem_paths, one, Option.some.injEq]
    constructor
    · rintro ⟨hq, haccepts⟩
      exact ((picks m hm (.refl m) q hq).mp haccepts).symm
    · rintro rfl
      exact ⟨hp, (picks m hm (.refl m) p hp).mpr rfl⟩

/-- A child appended where a selector picks one path is the only one that is new afterwards. -/
theorem Addresses.executes_append (h : m.Addresses s p) (hm : m.Shaped) (hp : p ∈ m)
    {d : Descriptor} (hname : validComponent d.name = true) (hkind : validKind d.kind = true)
    (hattr : d.attributes.get? nameAttribute = none) (fresh : p.child d.name ∉ m) :
    Executes m [(Query.select s).andThen (.append d)]
      (m.insert (p.child d.name) ⟨d.kind, d.attributes, ∅⟩) := by
  obtain ⟨a, hs, picked⟩ := h.select hm hp
  have compiles : CompiledQuery.compile ((Query.select s).andThen (.append d)).toSpec =
      .ok ⟨a, [.append d]⟩ := by
    have transforms : [Transform.toRaw (.append d)].mapM Transform.ofRaw = .ok [.append d] :=
      mapM_eq_ok_iff.mpr (.cons (Transform.ofRaw_append d) .nil)
    show (do
      let selector ← Selector.parse s
      let transforms ← [Transform.toRaw (.append d)].mapM Transform.ofRaw
      return (⟨selector, transforms⟩ : CompiledQuery)) = _
    rw [hs, transforms]
    rfl
  have inserts : ∃ c, m.insertChild p d =
      .ok (m.insert (p.child d.name) ⟨d.kind, d.attributes, ∅⟩, c) := by
    have free := Dict.contains_eq_false_iff.mpr hattr
    simp [insertChild, checkComponent, checkKind, hname, hkind, hp, free, fresh, bind, Except.bind]
  obtain ⟨c, inserts⟩ := inserts
  have runs : ∃ found, m.runMember .exclusive (.ok ⟨a, [.append d]⟩) =
      ⟨m.insert (p.child d.name) ⟨d.kind, d.attributes, ∅⟩, [c], .ok found⟩ := by
    simp [runMember, picked, applyAll, apply, enact, changing, Access.forChange, changeEach, single,
      inserts, Except.map]
  obtain ⟨found, runs⟩ := runs
  exact .cons compiles runs .nil

end Contents

/-- Wherever a selector picks one path, and no child of it is named as a branch of the value, the
queries for the value succeed and spell it out there. -/
def Json.Reflected (v : Json) : Prop :=
  ∀ {m : Contents} {s : String} {p : Path}, m.Shaped → p ∈ m → m.Addresses s p →
    (∀ b ∈ v.branches, p.child b.1 ∉ m) →
    ∃ n : Contents, Executes m (propertyQueries s v) n ∧ n.Shaped ∧ m.Gains (v.Spells p) n

section

variable {m : Contents} {s : String} {p : Path}

theorem valueQueries_execute {name : String} {v : Json} (hname : validComponent name = true)
    (hv : v.Reflected) (hm : m.Shaped) (hp : p ∈ m) (h : m.Addresses s p)
    (fresh : p.child name ∉ m) :
    ∃ n : Contents, Executes m (valueQueries s name v) n ∧ n.Shaped ∧
      m.Gains (Json.BranchSpells (name, v) p) n := by
  cases hgroup : v.isGroup with
  | false =>
    let d : Descriptor :=
      ⟨propertyKind, name, (∅ : Dict String).insert propertyValueAttribute (scalarText v)⟩
    have content : v.content = ⟨d.kind, d.attributes, ∅⟩ := by
      rw [Json.content, hgroup, ← Json.scalarText_eq hgroup]
      rfl
    have kind : validKind propertyKind = true := by decide
    have appended := h.executes_append hm hp (d := d) hname kind (Dict.get?_insert _ _ _ _) fresh
    have shaped : Contents.Shaped (m.insert (p.child name) ⟨d.kind, d.attributes, ∅⟩) :=
      hm.insert_child hp (show propertyKind ≠ rootKind by decide)
    refine ⟨_, ?_, shaped, (Contents.Gains.insert fresh _).congr fun q c => ?_⟩
    · rw [valueQueries_of_not_isGroup hgroup]
      exact appended
    · simp only [Json.BranchSpells, content, Json.not_spells_of_not_isGroup hgroup, or_false]
  | true =>
    have content : v.content = ⟨propertyGroupKind, ∅, ∅⟩ := by
      rw [Json.content, hgroup]
      rfl
    have kind : validKind propertyGroupKind = true := by decide
    have appended := h.executes_append hm hp (d := .plain propertyGroupKind name) hname kind rfl
      fresh
    have added := Contents.Gains.insert fresh ⟨propertyGroupKind, ∅, ∅⟩
    have shaped : Contents.Shaped (m.insert (p.child name) ⟨propertyGroupKind, ∅, ∅⟩) :=
      hm.insert_child hp (by decide)
    have addressed := (h.within added.within).group (Finmap.lookup_insert m) rfl
    obtain ⟨n, executes, hn, gains⟩ :=
      hv shaped (Finmap.mem_insert.mpr (.inl rfl)) addressed fun b _ => hm.childless fresh _ b.1
    refine ⟨n, ?_, hn, (added.trans gains).congr fun q c => ?_⟩
    · rw [valueQueries_of_isGroup hgroup]
      exact appended.append executes
    · rw [Json.BranchSpells, content]

theorem branches_execute {bs : List (String × Json)} (nodup : (bs.map Prod.fst).Nodup)
    (each : ∀ b ∈ bs, validComponent b.1 = true ∧ b.2.Reflected) (hm : m.Shaped) (hp : p ∈ m)
    (h : m.Addresses s p) (fresh : ∀ b ∈ bs, p.child b.1 ∉ m) :
    ∃ n : Contents, Executes m (bs.flatMap fun b => valueQueries s b.1 b.2) n ∧ n.Shaped ∧
      m.Gains (fun q c => ∃ b ∈ bs, Json.BranchSpells b p q c) n := by
  induction bs generalizing m with
  | nil => exact ⟨m, .nil, hm, (Contents.Gains.refl m).congr fun q c => by simp⟩
  | cons b rest ih =>
    obtain ⟨hb, hrest⟩ := List.forall_mem_cons.mp each
    obtain ⟨hfresh, hothers⟩ := List.forall_mem_cons.mp fresh
    obtain ⟨hnot, nodup⟩ := List.nodup_cons.mp nodup
    obtain ⟨n, first, hn, gains⟩ := valueQueries_execute hb.1 hb.2 hm hp h hfresh
    have fresh' : ∀ d ∈ rest, p.child d.1 ∉ n := by
      intro d hd hmem
      rcases gains.mem hmem with hmem | ⟨c, hspells⟩
      · exact hothers d hd hmem
      · have same := Path.child_covers_inj hspells.covers (Path.covers_self (p.child d.1))
        exact hnot (List.mem_map.mpr ⟨d, hd, same.symm⟩)
    obtain ⟨k, later, hk, gains'⟩ :=
      ih nodup hrest hn (gains.within.mem hp) (h.within gains.within) fresh'
    refine ⟨k, first.append later, hk, (gains.trans gains').congr fun q c => ?_⟩
    simp only [List.exists_mem_cons_iff]

end

theorem Json.WellNamed.reflected {v : Json} (h : v.WellNamed) : v.Reflected := by
  induction v using Json.branchInduction with
  | step v ih =>
    intro m s p hm hp haddr fresh
    obtain ⟨nodup, each⟩ := h.branches
    have reflected : ∀ b ∈ v.branches, validComponent b.1 = true ∧ b.2.Reflected :=
      fun b hb => ⟨(each b hb).1, ih b hb (each b hb).2⟩
    obtain ⟨n, executes, hn, gains⟩ := branches_execute nodup reflected hm hp haddr fresh
    refine ⟨n, ?_, hn, gains.congr fun q c => Json.spells_iff.symm⟩
    rw [propertyQueries_eq]
    exact executes

namespace Tree

/-- The queries that reflect a value below a node all succeed, and what they leave is what was there
and one node for each value inside the value, named by the keys and positions that lead to it. -/
theorem reflected_value_is_spelled_out (past : List Call) (p : Path) (v : Json)
    (hp : p ∈ (run past).contents) (hv : v.WellNamed)
    (fresh : ∀ b ∈ v.branches, p.child b.1 ∉ (run past).contents) :
    ∃ s, pathToQuery p.text = .ok s ∧
      let o := (Plan.compile ((propertyQueries s v).map Query.toSpec)).execute (run past)
      Forall₂ (fun _ r => ∃ found, r = .ok found) (propertyQueries s v) o.results ∧
        (run past).contents.Gains (v.Spells p) o.tree.contents := by
  have ht := run_sound past
  obtain ⟨id, e, he, hpath⟩ := ht.mem_contents_iff.mp hp
  have text : pathToQuery p.text = .ok p.selectorText := by
    rw [pathToQuery, Path.parse_text (hpath ▸ (ht.checked he).names)]
    rfl
  obtain ⟨n, executes, -, gains⟩ :=
    hv.reflected ht.shaped_contents hp (.selectorText _ p) fresh
  obtain ⟨results, changes, runs, each⟩ := executes.runMembers
  have shows := (Plan.runMembers_shows .exclusive
    (Plan.compile ((propertyQueries p.selectorText v).map Query.toSpec)).members ht).1
  rw [runs] at shows
  obtain ⟨rfl, hrest⟩ := Prod.mk.inj shows
  obtain ⟨rfl, -⟩ := Prod.mk.inj hrest
  exact ⟨_, text, each, gains⟩

/-- A lamp that has a child already. -/
def furnished : List Call :=
  [.create "/" "lamp" "light", .create "/lamp" "old" "node"]

/-- A list under a key with a blank, and a member whose keys have quotes and backslashes. -/
def features : Json :=
  .object [("a b", .array [.null, .number (.integer (-7)), .object []]),
    ("say \"hi\"", .object [("\\", .bool true)])]

theorem wellNamed_features : features.WellNamed := by
  have list : (Json.array [.null, .number (.integer (-7)), .object []]).WellNamed :=
    .array (List.forall_mem_cons.mpr ⟨.scalar rfl, List.forall_mem_cons.mpr ⟨.scalar rfl,
      List.forall_mem_singleton.mpr (.object (by decide) nofun nofun)⟩⟩)
  have quoted : (Json.object [("\\", .bool true)]).WellNamed :=
    .object (by decide) (by decide) (List.forall_mem_singleton.mpr (.scalar rfl))
  exact .object (by decide) (by decide)
    (List.forall_mem_cons.mpr ⟨list, List.forall_mem_singleton.mpr quoted⟩)

theorem reaches_features : features.Reaches ["a_b", "1"] (.number (.integer (-7))) := by
  have key : propertyName "a b" = "a_b" := by decide
  let items : List Json := [.null, .number (.integer (-7)), .object []]
  have list : ("a_b", Json.array items) ∈ features.branches := by
    simp [features, Json.branches, key, items]
  have seven : ("1", Json.number (.integer (-7))) ∈ (Json.array items).branches :=
    List.mem_mapIdx.mpr ⟨1, by simp [items], rfl⟩
  exact .deeper list (.branch seven)

theorem reflected_features_are_spelled_out :
    ∃ s, pathToQuery "/lamp" = .ok s ∧
      let o := (Plan.compile ((propertyQueries s features).map Query.toSpec)).execute
        (run furnished)
      Forall₂ (fun _ r => ∃ found, r = .ok found) (propertyQueries s features) o.results ∧
        (run furnished).contents.Gains (features.Spells ⟨["lamp"]⟩) o.tree.contents ∧
        o.tree.contents.lookup ⟨["lamp", "old"]⟩ = some ⟨"node", ∅, ∅⟩ ∧
        o.tree.contents.lookup ⟨["lamp", "a_b", "1"]⟩ =
          some ⟨"property", (∅ : Dict String).insert "value" "-7", ∅⟩ := by
  have there : (⟨["lamp"]⟩ : Path) ∈ (run furnished).contents := by decide +kernel
  have free : ∀ b ∈ features.branches,
      (⟨["lamp"]⟩ : Path).child b.1 ∉ (run furnished).contents := by decide +kernel
  have old : (run furnished).contents.lookup ⟨["lamp", "old"]⟩ = some ⟨"node", ∅, ∅⟩ := by
    decide +kernel
  obtain ⟨s, text, each, gains⟩ :=
    reflected_value_is_spelled_out furnished ⟨["lamp"]⟩ features there wellNamed_features free
  exact ⟨s, text, each, gains, gains.within _ _ old,
    (gains.lookup _ _).mpr (.inr ⟨_, _, reaches_features, rfl, rfl⟩)⟩

end Tree

end HomeTree
