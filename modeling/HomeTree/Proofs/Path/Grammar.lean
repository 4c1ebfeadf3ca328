import HomeTree.Proofs.Path.Above
import HomeTree.Proofs.Path.Text

namespace HomeTree

/-- The parts of a text with the mark before each of them are the text with the mark before it. -/
theorem flatMap_parts (mark : Char) (cs : List Char) :
    (parts mark cs).flatMap (mark :: ·) = mark :: cs := by
  induction cs with
  | nil => rfl
  | cons c cs ih =>
    rw [parts]
    split
    next h => rw [List.flatMap_cons, ih, List.singleton_append, h]
    next =>
      split
      next hnil => exact absurd hnil (parts_ne_nil mark cs)
      next part others hparts =>
        rw [hparts, List.flatMap_cons] at ih
        have joined : part ++ others.flatMap (mark :: ·) = cs := (List.cons.inj ih).2
        rw [List.flatMap_cons, List.cons_append, List.cons_append, joined]

namespace Path

theorem withoutLastSlash_append {cs : List Char} (h : cs ≠ []) :
    withoutLastSlash (cs ++ ['/']) = cs := by
  have long : 1 < (cs ++ ['/']).length := by
    have := List.length_pos_of_ne_nil h
    rw [List.length_append, List.length_singleton]
    omega
  rw [withoutLastSlash, if_pos ⟨long, List.getLast?_concat⟩, List.dropLast_concat]

theorem withoutLastSlash_cases (cs : List Char) : withoutLastSlash cs = cs ∨
    withoutLastSlash cs ≠ [] ∧ withoutLastSlash cs ++ ['/'] = cs := by
  unfold withoutLastSlash
  split
  next h =>
    refine .inr ⟨?_, List.dropLast_append_getLast? '/' h.2⟩
    apply List.ne_nil_of_length_pos
    rw [List.length_dropLast]
    omega
  next => exact .inl rfl

theorem eq_toList_of_checkPart {part : List Char} {c : String} (h : checkPart part = .ok c) :
    part = c.toList := by
  rw [checkPart] at h
  split at h
  next => cases h
  next =>
    split at h
    next => cases h
    next =>
      cases h
      exact String.toList_ofList.symm

theorem chars_of_parts {rest : List Char} {components : List String}
    (h : (parts '/' rest).mapM checkPart = .ok components) :
    components ≠ [] ∧ Path.chars ⟨components⟩ = '/' :: rest := by
  have each := (mapM_eq_ok_iff.mp h).imp fun _ _ => eq_toList_of_checkPart
  have texts : parts '/' rest = components.map String.toList :=
    List.forall₂_eq_eq_eq ▸ List.forall₂_map_right_iff.mpr each
  have some : components ≠ [] := by
    rintro rfl
    exact parts_ne_nil '/' rest texts
  refine ⟨some, ?_⟩
  rw [← flatMap_parts, texts, List.flatMap_map]
  simp [Path.chars, isRoot, some]

theorem chars_of_ofChars {cs : List Char} {p : Path} (h : ofChars cs = .ok p) :
    cs = p.chars ∨ p ≠ root ∧ cs = p.chars ++ ['/'] := by
  cases cs with
  | nil => cases h
  | cons c rest =>
    rw [ofChars] at h
    split at h
    next hc =>
      subst hc
      simp only at h
      -- The check for the root comes after the slash is dropped, which never leaves the root.
      rcases withoutLastSlash_cases rest with same | ⟨some, slash⟩
      · rw [same] at h
        split at h
        next hrest =>
          cases h
          exact .inl (congrArg _ hrest)
        next =>
          obtain ⟨components, hparts, rfl⟩ := exists_of_map_eq_ok h
          exact .inl (chars_of_parts hparts).2.symm
      · rw [if_neg some] at h
        obtain ⟨components, hparts, rfl⟩ := exists_of_map_eq_ok h
        obtain ⟨below, chars⟩ := chars_of_parts hparts
        have hne : (⟨components⟩ : Path) ≠ root := fun hroot =>
          below (congrArg Path.components hroot)
        exact .inr ⟨hne, by rw [chars, List.cons_append, slash]⟩
    next => cases h

theorem ofChars_chars_slash {p : Path} (h : p.Valid) (hne : p ≠ root) :
    ofChars (p.chars ++ ['/']) = .ok p := by
  obtain ⟨rest, chars, some, -, read⟩ := h.chars_eq hne
  rw [chars, List.cons_append, ofChars, if_pos rfl]
  simp only [withoutLastSlash_append some, if_neg some, read]
  rfl

theorem ofChars_eq_ok_iff {cs : List Char} {p : Path} :
    ofChars cs = .ok p ↔ p.Valid ∧ (cs = p.chars ∨ p ≠ root ∧ cs = p.chars ++ ['/']) := by
  constructor
  · exact fun h => ⟨valid_of_ofChars h, chars_of_ofChars h⟩
  · rintro ⟨valid, rfl | ⟨hne, rfl⟩⟩
    · exact ofChars_chars valid
    · exact ofChars_chars_slash valid hne

theorem parse_eq_ok_iff {s : String} {p : Path} :
    parse s = .ok p ↔ p.Valid ∧ (s = p.text ∨ p ≠ root ∧ s = p.text ++ "/") := by
  have opened : parse s = .ok p ↔ ofChars s.toList = .ok p := by
    rw [parse]
    split
    next h => simp [h]
    next h => simp [h]
  have shown : s.toList = p.chars ↔ s = p.text := by
    rw [text, ← String.toList_inj, String.toList_ofList]
  have slashed : s.toList = p.chars ++ ['/'] ↔ s = p.text ++ "/" := by
    rw [text, ← String.toList_inj, String.toList_append, String.toList_ofList]
    rfl
  rw [opened, ofChars_eq_ok_iff, shown, slashed]

/-- The paths that can be made: from texts, and from other paths by a name more or a name less. -/
inductive Made : Path → Prop
  | root : Made root
  | parse {s : String} {p : Path} : parse s = .ok p → Made p
  | join {p q : Path} {name : String} : Made p → p.join name = .ok q → Made q
  | parent {p q : Path} : Made p → p.parent? = some q → Made q

theorem valid_of_join {p q : Path} {name : String} (h : p.Valid) (hjoin : p.join name = .ok q) :
    q.Valid := by
  obtain ⟨⟨⟩, hcheck, hq⟩ := exists_of_bind_eq_ok hjoin
  have hname := checkComponent_eq_ok_iff.mp hcheck
  cases hq
  intro c hc
  rcases List.mem_append.mp hc with hc | hc
  · exact h c hc
  · exact List.mem_singleton.mp hc ▸ hname

theorem Made.valid {p : Path} (h : Made p) : p.Valid := by
  induction h with
  | root => exact fun c hc => by cases hc
  | parse h => exact valid_of_parse h
  | join _ hjoin ih => exact valid_of_join ih hjoin
  | parent _ hparent ih =>
    obtain ⟨name, rfl⟩ := eq_child_of_parent? hparent
    exact fun c hc => ih c (List.mem_append_left _ hc)

/-- A text is read as a path just when the path could have nodes at each of its components and the
text is that of the path, with one slash more perhaps where it is not the root; all other texts are
malformed. So each path that can be made is read back from its text, which no other has. -/
theorem paths_read_from_their_texts :
    (∀ s p, parse s = .ok p ↔ (∀ c ∈ p.components, checkComponent c = .ok ()) ∧
      (s = p.text ∨ p.components ≠ [] ∧ s = p.text ++ "/")) ∧
    (∀ s, (∀ p, parse s ≠ .ok p) ↔
      ∃ fault : PathFault, parse s = .error (.malformedPath s fault.message)) ∧
    (∀ p, Made p → parse p.text = .ok p) ∧
    ∀ p q, Made p → Made q → p ≠ q → p.text ≠ q.text := by
  have below : ∀ p : Path, p.components ≠ [] ↔ p ≠ root := fun p =>
    not_congr ⟨ext_components (q := root), congrArg Path.components⟩
  refine ⟨fun s p => ?_, fun s => ?_, fun p h => parse_text h.valid, fun p q hp hq hne htext => ?_⟩
  · simp only [checkComponent_eq_ok_iff, below]
    exact parse_eq_ok_iff
  · rw [parse]
    cases ofChars s.toList with
    | ok p => simp
    | error fault => simp
  · have read := (parse_text hp.valid).symm.trans (htext ▸ parse_text hq.valid)
    exact hne (Except.ok.inj read)

/-- A name with blanks and one of a star, behind a slash that is dropped. -/
theorem paths_read_from_their_texts_joined :
    ∃ p q, parse "/a room//" ≠ .ok p ∧ parse "/a room/" = .ok p ∧ p.join "*" = .ok q ∧
      parse q.text = .ok q ∧ p.text ≠ q.text := by
  have read : parse "/a room/" = .ok ⟨["a room"]⟩ := by decide
  have joined : (⟨["a room"]⟩ : Path).join "*" = .ok ⟨["a room", "*"]⟩ := by decide
  have made := Made.join (.parse read) joined
  exact ⟨_, _, by decide, read, joined, paths_read_from_their_texts.2.2.1 _ made,
    paths_read_from_their_texts.2.2.2 _ _ (.parse read) made (by decide)⟩

end Path

end HomeTree
