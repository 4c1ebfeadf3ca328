import HomeTree.Proofs.Attempt
import HomeTree.Proofs.Except
import HomeTree.Proofs.Tree.Sound

namespace HomeTree.Tree

/-- One change of an arena. A node is removed only when it has no children. -/
inductive Step : Tree → Change → Tree → Prop
  | insertChild {t u : Tree} {c : Change} {parent : NodeId} {d : Descriptor} :
      t.insertChild parent d = .ok c u → Step t c u
  | setAttribute {t u : Tree} {c : Change} {id : NodeId} {name value : String} :
      t.setAttribute id name value = .ok c u → Step t c u
  | setStyle {t u : Tree} {c : Change} {id : NodeId} {name value : String} :
      t.setStyle id name value = .ok c u → Step t c u
  | detach {t : Tree} {id : NodeId} {e : Entry} :
      t.entry? id = some e → id ≠ rootId → e.children.isEmpty = true →
      Step t (t.detach id).2 (t.detach id).1

inductive Steps : Tree → List Change → Tree → Prop
  | refl {t : Tree} : Steps t [] t
  | step {t u v : Tree} {c : Change} {cs : List Change} :
      Step t c u → Steps u cs v → Steps t (c :: cs) v

theorem Steps.trans {t u v : Tree} {cs ds : List Change} (h : Steps t cs u)
    (h' : Steps u ds v) : Steps t (cs ++ ds) v := by
  induction h with
  | refl => exact h'
  | step first _ ih => exact .step first (ih h')

theorem Step.single {t u : Tree} {c : Change} (h : Step t c u) : Steps t [c] u :=
  .step h .refl

/-- What an attempt leaves and the change it has made, if it was not refused. -/
def made : EStateM.Result TreeError Tree Change → Tree × List Change
  | .ok c t => (t, [c])
  | .error _ t => (t, [])

theorem made_steps {t : Tree} {x : EStateM TreeError Tree Change} (early : FailsEarly x)
    (step : ∀ {c u}, x t = .ok c u → Step t c u) : Steps t (made (x t)).2 (made (x t)).1 := by
  cases h : x t with
  | ok c u => exact (step h).single
  | error e u =>
    cases early t e u h
    exact .refl

/-- The entry of a node that a descriptor asks for. -/
def newEntry (path : Path) (d : Descriptor) (parent : NodeId) : Entry :=
  ⟨path.child d.name, d.kind, d.attributes, ∅, ∅, some parent⟩

theorem checked_newEntry {e : Entry} (h : e.Checked) {d : Descriptor}
    (hname : validComponent d.name = true) (hkind : validKind d.kind = true)
    (hattr : d.attributes.get? nameAttribute = none) (parent : NodeId) :
    (newEntry e.path d parent).Checked := by
  refine ⟨fun _ => hkind, ?_, hattr⟩
  intro name hn
  rcases List.mem_append.mp hn with hn | hn
  · exact h.names name hn
  · rw [List.mem_singleton.mp hn]
    exact hname

def attach (t : Tree) (parent : NodeId) (name : String) (child : Entry) : Tree :=
  (t.allocate child).1.update parent fun e =>
    { e with children := e.children.insert name (t.allocate child).2 }

/-- Below a living node a child is created, or nothing is done. -/
theorem insertChild_of_living {t : Tree} {parent : NodeId} {e : Entry}
    (he : t.entry? parent = some e) (d : Descriptor) :
    t.insertChild parent d = allOrNothing t (do
      checkComponent d.name
      checkKind d.kind
      if d.attributes.contains nameAttribute then
        .error (.immutableAttribute (e.path.child d.name).text nameAttribute)
      else if e.children.contains d.name then
        .error (.nodeAlreadyExists (e.path.child d.name).text)
      else
        let child := newEntry e.path d parent
        let u := t.attach parent d.name child
        .ok (u, ⟨e.path.child d.name, .created d.kind, u.lineage (t.allocate child).2⟩)) := by
  refine lift_bind_eq_allOrNothing fun _ _ => lift_bind_eq_allOrNothing fun _ _ => ?_
  have living : t.living parent = .ok e := by rw [living, he]
  refine (lift_bind_ok living).trans ?_
  by_cases hattr : d.attributes.contains nameAttribute = true
  · rw [if_pos hattr, if_pos hattr]
    rfl
  · rw [if_neg hattr, if_neg hattr]
    by_cases hchild : e.children.contains d.name = true
    · rw [if_pos hchild, if_pos hchild]
      rfl
    · rw [if_neg hchild, if_neg hchild]
      rfl

theorem exists_of_insertChild_eq_ok {t u : Tree} {parent : NodeId} {d : Descriptor} {c : Change}
    (h : t.insertChild parent d = .ok c u) : ∃ e, t.entry? parent = some e := by
  obtain ⟨_, _, h⟩ := exists_of_lift_bind_eq_ok h
  obtain ⟨_, _, h⟩ := exists_of_lift_bind_eq_ok h
  obtain ⟨e, he, -⟩ := exists_of_lift_bind_eq_ok h
  exact ⟨e, living_eq_ok_iff.mp he⟩

theorem insertChild_eq_ok {t u : Tree} {parent : NodeId} {d : Descriptor} {c : Change}
    (h : t.insertChild parent d = .ok c u) :
    ∃ e, t.entry? parent = some e ∧ validComponent d.name = true ∧ validKind d.kind = true ∧
      d.attributes.get? nameAttribute = none ∧ e.children.get? d.name = none ∧
      u = t.attach parent d.name (newEntry e.path d parent) ∧
      c = ⟨e.path.child d.name, .created d.kind,
        u.lineage (t.allocate (newEntry e.path d parent)).2⟩ := by
  obtain ⟨e, he⟩ := exists_of_insertChild_eq_ok h
  rw [insertChild_of_living he, allOrNothing_eq_ok] at h
  obtain ⟨_, hname, h⟩ := exists_of_bind_eq_ok h
  obtain ⟨_, hkind, h⟩ := exists_of_bind_eq_ok h
  split at h
  next => cases h
  next hattr =>
    split at h
    next => cases h
    next hchild =>
      cases h
      exact ⟨e, he, Path.checkComponent_eq_ok_iff.mp hname, checkKind_eq_ok_iff.mp hkind,
        Dict.contains_eq_false_iff.mp (by simpa using hattr),
        Dict.contains_eq_false_iff.mp (by simpa using hchild), rfl, rfl⟩

theorem setAttribute_of_living {t : Tree} {id : NodeId} {e : Entry} (he : t.entry? id = some e)
    (name value : String) :
    t.setAttribute id name value = allOrNothing t (
      if name = nameAttribute then .error (.immutableAttribute e.path.text name)
      else
        let u := t.update id fun e => { e with attributes := e.attributes.insert name value }
        .ok (u, ⟨e.path, .attributeSet name value, u.lineage id⟩)) := by
  refine (lift_bind_ok (living_eq_ok_iff.mpr he)).trans ?_
  by_cases hname : name = nameAttribute
  · rw [if_pos hname, if_pos hname]
    rfl
  · rw [if_neg hname, if_neg hname]
    rfl

theorem setAttribute_eq_ok {t u : Tree} {id : NodeId} {name value : String} {c : Change}
    (h : t.setAttribute id name value = .ok c u) :
    ∃ e, t.entry? id = some e ∧ name ≠ nameAttribute ∧
      u = t.update id (fun e => { e with attributes := e.attributes.insert name value }) ∧
      c = ⟨e.path, .attributeSet name value, u.lineage id⟩ := by
  obtain ⟨e, hliving, -⟩ := exists_of_lift_bind_eq_ok h
  have he := living_eq_ok_iff.mp hliving
  rw [setAttribute_of_living he, allOrNothing_eq_ok] at h
  split at h
  next => cases h
  next hname =>
    cases h
    exact ⟨e, he, hname, rfl, rfl⟩

theorem setStyle_of_living {t : Tree} {id : NodeId} {e : Entry} (he : t.entry? id = some e)
    (name value : String) :
    let u := t.update id fun e => { e with style := e.style.insert name value }
    t.setStyle id name value = .ok ⟨e.path, .styleSet name value, u.lineage id⟩ u :=
  lift_bind_ok (living_eq_ok_iff.mpr he)

theorem setStyle_eq_ok {t u : Tree} {id : NodeId} {name value : String} {c : Change}
    (h : t.setStyle id name value = .ok c u) :
    ∃ e, t.entry? id = some e ∧
      u = t.update id (fun e => { e with style := e.style.insert name value }) ∧
      c = ⟨e.path, .styleSet name value, u.lineage id⟩ := by
  obtain ⟨e, hliving, -⟩ := exists_of_lift_bind_eq_ok h
  have he := living_eq_ok_iff.mp hliving
  rw [setStyle_of_living he] at h
  cases h
  exact ⟨e, he, rfl, rfl⟩

/-- All that can stop an edit of a node is looked at before anything is written. -/
theorem insertChild_failsEarly (parent : NodeId) (d : Descriptor) :
    FailsEarly (insertChild parent d) := by
  have refused : ∀ e : TreeError, FailsEarly (throw e : EStateM TreeError Tree Change) :=
    fun e => .throw fun _ => rfl
  refine .lift_bind (fun _ _ _ => rfl) fun _ => .lift_bind (fun _ _ _ => rfl) fun _ => ?_
  refine .get_bind fun t => .lift_bind (fun _ _ _ => rfl) fun e => ?_
  exact .ite (refused _) (.ite (refused _) (.of_ok fun _ => ⟨_, _, rfl⟩))

theorem setAttribute_failsEarly (id : NodeId) (name value : String) :
    FailsEarly (setAttribute id name value) := by
  refine .get_bind fun t => .lift_bind (fun _ _ _ => rfl) fun e => ?_
  exact .ite (.throw fun _ => rfl) (.of_ok fun _ => ⟨_, _, rfl⟩)

theorem setStyle_failsEarly (id : NodeId) (name value : String) :
    FailsEarly (setStyle id name value) := by
  refine .get_bind fun t => .lift_bind (fun _ _ _ => rfl) fun e => ?_
  exact .of_ok fun _ => ⟨_, _, rfl⟩

namespace Sound

variable {t : Tree}

theorem child_entry_ne (ht : t.Sound) {p c : NodeId} {e : Entry} {name : String}
    (he : t.entry? p = some e) (hc : e.children.get? name = some c) : c ≠ p := by
  obtain ⟨f, hf, _, hpath⟩ := ht.child he hc
  rintro rfl
  cases Option.some.inj (he.symm.trans hf)
  have := congrArg Path.depth hpath
  simp at this

/-- Old nodes keep all but their children; only the parent gets one more. -/
theorem entry?_attach (ht : t.Sound) {parent : NodeId} {e : Entry}
    (he : t.entry? parent = some e) (name : String) (child : Entry) (other : NodeId) :
    Tree.entry? (t.attach parent name child) other =
      if other = (t.allocate child).2 then some child
      else (t.entry? other).map fun f => { f with
        children := if other = parent then f.children.insert name (t.allocate child).2
          else f.children } := by
  obtain ⟨hnone, hentry⟩ := ht.entry?_allocate child
  have hne : parent ≠ (t.allocate child).2 := by
    rintro h
    rw [← h, he] at hnone
    cases hnone
  rw [Tree.attach, entry?_update, hentry, hentry]
  by_cases h : other = parent
  · subst other
    simp [hne, he]
  · simp [h]

theorem entry?_attach_new (ht : t.Sound) {parent : NodeId} {e : Entry}
    (he : t.entry? parent = some e) (name : String) (child : Entry) :
    Tree.entry? (t.attach parent name child) (t.allocate child).2 = some child := by
  rw [ht.entry?_attach he, if_pos rfl]

theorem entry?_attach_old (ht : t.Sound) {parent : NodeId} {e : Entry}
    (he : t.entry? parent = some e) (name : String) (child : Entry) {other : NodeId} {f : Entry}
    (hf : t.entry? other = some f) :
    Tree.entry? (t.attach parent name child) other = some { f with
      children := if other = parent then f.children.insert name (t.allocate child).2
        else f.children } := by
  have hne : other ≠ (t.allocate child).2 := by
    rintro rfl
    simp [(ht.entry?_allocate child).1] at hf
  rw [ht.entry?_attach he, if_neg hne, hf, Option.map_some]

theorem cases_of_entry?_attach (ht : t.Sound) {parent : NodeId} {e : Entry}
    (he : t.entry? parent = some e) {name : String} {child : Entry} {other : NodeId} {g : Entry}
    (hg : Tree.entry? (t.attach parent name child) other = some g) :
    (other = (t.allocate child).2 ∧ g = child) ∨ ∃ f, t.entry? other = some f ∧ g = { f with
      children := if other = parent then f.children.insert name (t.allocate child).2
        else f.children } := by
  rw [ht.entry?_attach he] at hg
  split at hg
  next h => exact Or.inl ⟨h, (Option.some.inj hg).symm⟩
  next =>
    obtain ⟨f, hf, rfl⟩ := Option.map_eq_some_iff.mp hg
    exact Or.inr ⟨f, hf, rfl⟩

theorem attach (ht : t.Sound) {parent : NodeId} {e : Entry} (he : t.entry? parent = some e)
    {name : String} (hfree : e.children.get? name = none) {child : Entry}
    (hpath : child.path = e.path.child name) (hparent : child.parent = some parent)
    (hchildren : child.children = ∅) (hchecked : child.Checked) :
    (t.attach parent name child).Sound := by
  have hnew := ht.entry?_attach_new he name child
  have hold : ∀ {c f}, t.entry? c = some f → _ := fun hf => ht.entry?_attach_old he name child hf
  refine ⟨(ht.toCounted.allocate child).update parent _, ?_, ?_, ?_, ?_⟩
  · obtain ⟨f, hf, hroot, hkind, hparent⟩ := ht.root
    exact ⟨_, hold hf, hroot, hkind, hparent⟩
  · intro p g other c hg hc
    rcases ht.cases_of_entry?_attach he hg with ⟨_, rfl⟩ | ⟨f, hf, rfl⟩
    · simp [hchildren] at hc
    · -- The link is the new one, or it was there before.
      by_cases h : p = parent ∧ other = name
      · obtain ⟨rfl, rfl⟩ := h
        cases Option.some.inj (he.symm.trans hf)
        rw [if_pos rfl, Dict.get?_insert, if_pos rfl] at hc
        cases Option.some.inj hc
        exact ⟨child, hnew, hparent, hpath⟩
      · have hc' : f.children.get? other = some c := by
          by_cases hp : p = parent
          · have ho : other ≠ name := fun ho => h ⟨hp, ho⟩
            simpa [hp, Dict.get?_insert, ho] using hc
          · simpa [hp] using hc
        obtain ⟨k, hk, hkp, hkpath⟩ := ht.child hf hc'
        exact ⟨_, hold hk, hkp, hkpath⟩
  · intro c g hg hc
    rcases ht.cases_of_entry?_attach he hg with ⟨rfl, rfl⟩ | ⟨f, hf, rfl⟩
    · exact ⟨parent, _, name, hparent, hold he, by simp [Dict.get?_insert]⟩
    · obtain ⟨p, k, other, hp, hk, hkc⟩ := ht.parent hf hc
      refine ⟨p, _, other, hp, hold hk, ?_⟩
      -- The new name was free, so it is not the one under which an old node stands.
      by_cases h : p = parent
      · subst p
        cases Option.some.inj (he.symm.trans hk)
        have ho : other ≠ name := by
          rintro rfl
          simp [hfree] at hkc
        simpa [Dict.get?_insert, ho] using hkc
      · simpa [h] using hkc
  · intro c g hg
    rcases ht.cases_of_entry?_attach he hg with ⟨_, rfl⟩ | ⟨f, hf, rfl⟩
    · exact hchecked
    · exact (ht.checked hf).of_texts rfl rfl rfl

theorem update (ht : t.Sound) (id : NodeId) {f : Entry → Entry} (hpath : ∀ e, (f e).path = e.path)
    (hkind : ∀ e, (f e).kind = e.kind) (hchildren : ∀ e, (f e).children = e.children)
    (hparent : ∀ e, (f e).parent = e.parent) (hchecked : ∀ e, e.Checked → (f e).Checked) :
    (t.update id f).Sound := by
  have same : ∀ (c : NodeId) (e : Entry), let g := if c = id then f e else e
      g.path = e.path ∧ g.kind = e.kind ∧ g.children = e.children ∧ g.parent = e.parent := by
    intro c e
    by_cases h : c = id
    · simp only [h, if_true]
      exact ⟨hpath e, hkind e, hchildren e, hparent e⟩
    · simp [h]
  refine ⟨ht.toCounted.update id f, ?_, ?_, ?_, ?_⟩
  · obtain ⟨e, he, hp, hk, hpar⟩ := ht.root
    obtain ⟨h1, h2, _, h4⟩ := same rootId e
    exact ⟨_, entry?_update_old f he, h1.trans hp, h2.trans hk, h4.trans hpar⟩
  · intro p g name c hg hc
    obtain ⟨e, he, rfl⟩ := cases_of_entry?_update hg
    obtain ⟨h1, _, h3, _⟩ := same p e
    obtain ⟨k, hk, hkp, hkpath⟩ := ht.child he (h3 ▸ hc)
    obtain ⟨k1, _, _, k4⟩ := same c k
    exact ⟨_, entry?_update_old f hk, k4.trans hkp, by rw [k1, hkpath, h1]⟩
  · intro c g hg hc
    obtain ⟨e, he, rfl⟩ := cases_of_entry?_update hg
    obtain ⟨_, _, _, h4⟩ := same c e
    obtain ⟨p, k, name, hp, hk, hkc⟩ := ht.parent he hc
    obtain ⟨_, _, k3, _⟩ := same p k
    exact ⟨p, _, name, h4.trans hp, entry?_update_old f hk, k3 ▸ hkc⟩
  · intro c g hg
    obtain ⟨e, he, rfl⟩ := cases_of_entry?_update hg
    split
    next => exact hchecked e (ht.checked he)
    next => exact ht.checked he

/-- A node that is detached leaves its slot, and its parent the name it stood under. -/
theorem entry?_detach (ht : t.Sound) {id p : NodeId} {e f : Entry} {name : String}
    (he : t.entry? id = some e) (hp : e.parent = some p) (hf : t.entry? p = some f)
    (hc : f.children.get? name = some id) (other : NodeId) :
    Tree.entry? (t.detach id).1 other =
      if other = id then none
      else (t.entry? other).map fun g => { g with
        children := if other = p then g.children.erase name else g.children } := by
  obtain ⟨e', he', _, hpath⟩ := ht.child hf hc
  cases Option.some.inj (he.symm.trans he')
  have hname : e.path.name? = some name := by rw [hpath, Path.name?_child]
  have hne := ht.child_entry_ne hf hc
  have hlt := lt_size_of_living he
  simp only [Tree.detach, he, hp, hname]
  rw [entry?_update, entry?_setIfInBounds t id _ _ _ _ hlt, entry?_setIfInBounds t id _ _ _ _ hlt]
  by_cases h : other = p
  · subst other
    simp [hne.symm, hf]
  · simp [h]

theorem entry?_detach_other (ht : t.Sound) {id p : NodeId} {e f : Entry} {name : String}
    (he : t.entry? id = some e) (hp : e.parent = some p) (hf : t.entry? p = some f)
    (hc : f.children.get? name = some id) {other : NodeId} {g : Entry}
    (hg : t.entry? other = some g) (hne : other ≠ id) :
    Tree.entry? (t.detach id).1 other = some { g with
      children := if other = p then g.children.erase name else g.children } := by
  rw [ht.entry?_detach he hp hf hc, if_neg hne, hg, Option.map_some]

theorem cases_of_entry?_detach (ht : t.Sound) {id p : NodeId} {e f : Entry} {name : String}
    (he : t.entry? id = some e) (hp : e.parent = some p) (hf : t.entry? p = some f)
    (hc : f.children.get? name = some id) {other : NodeId} {g : Entry}
    (hg : Tree.entry? (t.detach id).1 other = some g) :
    other ≠ id ∧ ∃ k, t.entry? other = some k ∧ g = { k with
      children := if other = p then k.children.erase name else k.children } := by
  rw [ht.entry?_detach he hp hf hc] at hg
  split at hg
  next => cases hg
  next hne =>
    obtain ⟨k, hk, rfl⟩ := Option.map_eq_some_iff.mp hg
    exact ⟨hne, k, hk, rfl⟩

theorem detach (ht : t.Sound) {id : NodeId} {e : Entry} (he : t.entry? id = some e)
    (hr : id ≠ rootId) (hchildless : e.children.isEmpty = true) : (t.detach id).1.Sound := by
  obtain ⟨p, f, name, hp, hf, hc, hpath⟩ := ht.parent_path he hr
  have hname : e.path.name? = some name := by rw [hpath, Path.name?_child]
  have hcounted : (t.detach id).1.Counted := by
    simp only [Tree.detach, he, hp, hname]
    exact (ht.toCounted.release he).update p _
  have hold : ∀ {c g}, t.entry? c = some g → c ≠ id → _ :=
    fun hg hne => ht.entry?_detach_other he hp hf hc hg hne
  have hback : ∀ {c g}, Tree.entry? (t.detach id).1 c = some g → _ :=
    fun hg => ht.cases_of_entry?_detach he hp hf hc hg
  refine ⟨hcounted, ?_, ?_, ?_, ?_⟩
  · obtain ⟨g, hg, hroot, hkind, hparent⟩ := ht.root
    exact ⟨_, hold hg hr.symm, hroot, hkind, hparent⟩
  · intro q g other c hg hcg
    obtain ⟨hq, k, hk, rfl⟩ := hback hg
    have hck : k.children.get? other = some c ∧ ¬(q = p ∧ other = name) := by
      by_cases h : q = p
      · rw [if_pos h, Dict.get?_erase] at hcg
        split at hcg
        next => cases hcg
        next ho => exact ⟨hcg, fun hh => ho hh.2⟩
      · rw [if_neg h] at hcg
        exact ⟨hcg, fun hh => h hh.1⟩
    obtain ⟨l, hl, hlp, hlpath⟩ := ht.child hk hck.1
    refine ⟨_, hold hl ?_, hlp, hlpath⟩
    -- The detached node stood under the erased name alone.
    rintro rfl
    cases Option.some.inj (he.symm.trans hl)
    cases Option.some.inj (hp.symm.trans hlp)
    cases Option.some.inj (hf.symm.trans hk)
    exact hck.2 ⟨rfl, (Path.child_inj.mp (hlpath.symm.trans hpath)).2⟩
  · intro c g hg hcr
    obtain ⟨hcid, k, hk, rfl⟩ := hback hg
    obtain ⟨q, l, other, hq, hl, hlc⟩ := ht.parent hk hcr
    have hqid : q ≠ id := by
      rintro rfl
      cases Option.some.inj (he.symm.trans hl)
      rw [Dict.isEmpty_iff.mp hchildless] at hlc
      cases hlc
    refine ⟨q, _, other, hq, hold hl hqid, ?_⟩
    by_cases h : q = p
    · subst q
      cases Option.some.inj (hf.symm.trans hl)
      have ho : other ≠ name := by
        rintro rfl
        exact hcid (Option.some.inj (hlc.symm.trans hc))
      simpa [Dict.get?_erase, ho] using hlc
    · simpa [h] using hlc
  · intro c g hg
    obtain ⟨_, k, hk, rfl⟩ := hback hg
    exact (ht.checked hk).of_texts rfl rfl rfl

end Sound

theorem Step.sound {t u : Tree} {c : Change} (h : Step t c u) (ht : t.Sound) : u.Sound := by
  cases h with
  | @insertChild _ _ parent d h =>
    obtain ⟨e, he, hname, hkind, hattr, hfree, rfl, _⟩ := insertChild_eq_ok h
    exact ht.attach he hfree rfl rfl rfl (checked_newEntry (ht.checked he) hname hkind hattr parent)
  | setAttribute h =>
    obtain ⟨e, he, hne, rfl, _⟩ := setAttribute_eq_ok h
    refine ht.update _ (fun _ => rfl) (fun _ => rfl) (fun _ => rfl) (fun _ => rfl) ?_
    intro e hchecked
    refine ⟨hchecked.kind, hchecked.names, ?_⟩
    rw [Dict.get?_insert, if_neg hne.symm]
    exact hchecked.attributes
  | setStyle h =>
    obtain ⟨e, he, rfl, _⟩ := setStyle_eq_ok h
    exact ht.update _ (fun _ => rfl) (fun _ => rfl) (fun _ => rfl) (fun _ => rfl)
      fun _ hchecked => hchecked.of_texts rfl rfl rfl
  | detach he hr hchildless => exact ht.detach he hr hchildless

/-- What lives after a step lived before at the same path, unless the step created it. -/
theorem Step.entry?_before {t u : Tree} {c : Change} (h : Step t c u) (ht : t.Sound) {id : NodeId}
    {f : Entry} (hf : u.entry? id = some f) :
    (∃ e, t.entry? id = some e ∧ e.path = f.path) ∨
      (t.entry? id = none ∧ ∃ kind, c.event = .created kind ∧ c.path = f.path) := by
  have of_update : ∀ {i : NodeId} {g : Entry → Entry}, Tree.entry? (t.update i g) id = some f →
      (∀ e, (g e).path = e.path) → ∃ e, t.entry? id = some e ∧ e.path = f.path := by
    intro i g hf hg
    obtain ⟨e, he, rfl⟩ := cases_of_entry?_update hf
    refine ⟨e, he, ?_⟩
    split
    next => exact (hg e).symm
    next => rfl
  cases h with
  | @insertChild _ _ parent d h =>
    obtain ⟨e, he, _, _, _, _, rfl, rfl⟩ := insertChild_eq_ok h
    rcases ht.cases_of_entry?_attach he hf with ⟨rfl, rfl⟩ | ⟨g, hg, rfl⟩
    · have hnone := (ht.entry?_allocate (newEntry e.path d parent)).1
      exact Or.inr ⟨hnone, d.kind, rfl, rfl⟩
    · exact Or.inl ⟨g, hg, rfl⟩
  | setAttribute h =>
    obtain ⟨e, he, _, rfl, _⟩ := setAttribute_eq_ok h
    exact Or.inl (of_update hf fun _ => rfl)
  | setStyle h =>
    obtain ⟨e, he, rfl, _⟩ := setStyle_eq_ok h
    exact Or.inl (of_update hf fun _ => rfl)
  | detach he hr _ =>
    obtain ⟨p, g, name, hp, hg, hc, _⟩ := ht.parent_path he hr
    obtain ⟨_, k, hk, rfl⟩ := ht.cases_of_entry?_detach he hp hg hc hf
    exact Or.inl ⟨k, hk, rfl⟩

theorem Steps.sound {t u : Tree} {cs : List Change} (h : Steps t cs u) (ht : t.Sound) :
    u.Sound := by
  induction h with
  | refl => exact ht
  | step first _ ih => exact ih (first.sound ht)

end HomeTree.Tree
