import HomeTree.Proofs.Contents.Log

namespace HomeTree

namespace Contents

/-- A new child below a path. Its name and kind are looked at first, then whether the path is
there, then the attributes, and last whether the child is there already. -/
def insertChild (m : Contents) (p : Path) (d : Descriptor) :
    Except TreeError (Contents × Change) := do
  checkComponent d.name
  checkKind d.kind
  if p ∉ m then .error (.noSuchNode p.text)
  else if d.attributes.contains nameAttribute then
    .error (.immutableAttribute (p.child d.name).text nameAttribute)
  else if p.child d.name ∈ m then .error (.nodeAlreadyExists (p.child d.name).text)
  else
    let n : Contents := m.insert (p.child d.name) ⟨d.kind, d.attributes, ∅⟩
    .ok (n, ⟨p.child d.name, .created d.kind, n.lineage (p.child d.name)⟩)

def setAttribute (m : Contents) (p : Path) (name value : String) :
    Except TreeError (Contents × Change) :=
  match m.lookup p with
  | none => .error (.noSuchNode p.text)
  | some c =>
    if name = nameAttribute then .error (.immutableAttribute p.text name)
    else
      let n : Contents := m.insert p { c with attributes := c.attributes.insert name value }
      .ok (n, ⟨p, .attributeSet name value, n.lineage p⟩)

def setStyle (m : Contents) (p : Path) (name value : String) :
    Except TreeError (Contents × Change) :=
  match m.lookup p with
  | none => .error (.noSuchNode p.text)
  | some c =>
    let n : Contents := m.insert p { c with style := c.style.insert name value }
    .ok (n, ⟨p, .styleSet name value, n.lineage p⟩)

end Contents

/-- What an attempt on a tree comes to in its contents. -/
def onContents {α : Type} :
    EStateM.Result TreeError Tree α → EStateM.Result TreeError Contents α
  | .ok a t => .ok a t.contents
  | .error e t => .error e t.contents

/-- What is looked at first on the tree and on the contents stops both alike. -/
theorem onContents_lift_bind {α β : Type} {t : Tree} {r : Except TreeError α}
    {f : α → EStateM TreeError Tree β} {g : α → Except TreeError (Contents × β)}
    (h : ∀ a, r = .ok a → onContents (f a t) = allOrNothing t.contents (g a)) :
    onContents (((liftM r : EStateM TreeError Tree α) >>= f) t) =
      allOrNothing t.contents (r >>= g) := by
  cases r with
  | ok a => exact h a rfl
  | error e => rfl

namespace Tree.Sound

variable {t : Tree} {id : NodeId} {e : Entry}

theorem contains_child_iff (ht : t.Sound) (he : t.entry? id = some e) {name : String} :
    e.children.contains name = true ↔ e.path.child name ∈ t.contents := by
  rw [Dict.contains_iff, ht.child_mem_contents_iff he]

/-- An edit of a node is the edit of the contents at its path. Where the contents refuse it, the
tree behind it has the same contents. -/
theorem insertChild_eq (ht : t.Sound) (he : t.entry? id = some e) (d : Descriptor) :
    onContents (t.insertChild id d) =
      allOrNothing t.contents (t.contents.insertChild e.path d) := by
  cases h : t.insertChild id d with
  | ok c u =>
    obtain ⟨hfresh, hcontents, hc⟩ := ht.contents_insertChild he h
    obtain ⟨_, _, hname, hkind, hattr, _⟩ := insertChild_eq_ok h
    have hattr := Dict.contains_eq_false_iff.mpr hattr
    rw [hcontents] at hc
    simp [onContents, allOrNothing, Contents.insertChild, checkComponent, checkKind, hname, hkind,
      hattr, hfresh, ht.mem_contents he, hcontents, hc, bind, Except.bind]
  | error err u =>
    rw [insertChild_of_living he, allOrNothing_eq_error] at h
    obtain ⟨h, rfl⟩ := h
    refine (allOrNothing_eq_error.mpr ⟨?_, rfl⟩).symm
    simp only [Contents.insertChild, ht.mem_contents he, not_true_eq_false, if_false,
      ← ht.contains_child_iff he]
    -- The refusals agree one by one; where nothing is refused there is no error.
    by_cases hname : validComponent d.name = true
    · by_cases hkind : validKind d.kind = true
      · by_cases hattr : d.attributes.contains nameAttribute = true
        · simpa [checkComponent, checkKind, hname, hkind, hattr, bind, Except.bind] using h
        · by_cases hchild : e.children.contains d.name = true
          · simpa [checkComponent, checkKind, hname, hkind, hattr, hchild, bind, Except.bind]
              using h
          · simp [checkComponent, checkKind, hname, hkind, hattr, hchild, bind, Except.bind] at h
      · simpa [checkComponent, checkKind, hname, hkind, bind, Except.bind] using h
    · simpa [checkComponent, hname, bind, Except.bind] using h

theorem setAttribute_eq (ht : t.Sound) (he : t.entry? id = some e) (name value : String) :
    onContents (t.setAttribute id name value) =
      allOrNothing t.contents (t.contents.setAttribute e.path name value) := by
  simp only [Contents.setAttribute, ht.lookup_contents he]
  cases h : t.setAttribute id name value with
  | ok c u =>
    obtain ⟨hcontents, hc⟩ := ht.contents_setAttribute he h
    obtain ⟨_, _, hname, _⟩ := setAttribute_eq_ok h
    rw [hcontents] at hc
    rw [if_neg hname, hc, onContents, hcontents]
    rfl
  | error err u =>
    rw [setAttribute_of_living he, allOrNothing_eq_error] at h
    obtain ⟨h, rfl⟩ := h
    split at h
    next hname =>
      cases h
      rw [if_pos hname]
      rfl
    next => cases h

theorem setStyle_eq (ht : t.Sound) (he : t.entry? id = some e) (name value : String) :
    onContents (t.setStyle id name value) =
      allOrNothing t.contents (t.contents.setStyle e.path name value) := by
  have made := setStyle_of_living he name value
  obtain ⟨hcontents, hc⟩ := ht.contents_setStyle he made
  rw [hcontents] at hc
  rw [made, hc, onContents, hcontents]
  simp only [Contents.setStyle, ht.lookup_contents he]
  rfl

end Tree.Sound

end HomeTree
