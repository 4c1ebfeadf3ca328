import HomeTree.Path.Pattern
import HomeTree.Proofs.Except

namespace HomeTree

theorem parts_of_not_mem {mark : Char} {cs : List Char} (h : mark ∉ cs) : parts mark cs = [cs] := by
  induction cs with
  | nil => rfl
  | cons c cs ih =>
    have hne : c ≠ mark := (List.ne_of_not_mem_cons h).symm
    rw [parts, if_neg hne, ih (List.not_mem_of_not_mem_cons h)]

theorem parts_append {mark : Char} {cs : List Char} (h : mark ∉ cs) (rest : List Char) :
    parts mark (cs ++ mark :: rest) = cs :: parts mark rest := by
  induction cs with
  | nil => rw [List.nil_append, parts, if_pos rfl]
  | cons c cs ih =>
    have hne : c ≠ mark := (List.ne_of_not_mem_cons h).symm
    rw [List.cons_append, parts, if_neg hne, ih (List.not_mem_of_not_mem_cons h)]

/-- Parts joined by the mark are found again. -/
theorem parts_joined {mark : Char} {first : List Char} {others : List (List Char)}
    (h : ∀ part ∈ first :: others, mark ∉ part) :
    parts mark (first ++ others.flatMap (mark :: ·)) = first :: others := by
  induction others generalizing first with
  | nil =>
    rw [List.flatMap_nil, List.append_nil]
    exact parts_of_not_mem (h first List.mem_cons_self)
  | cons next others ih =>
    obtain ⟨hfirst, hothers⟩ := List.forall_mem_cons.mp h
    rw [List.flatMap_cons, List.cons_append, parts_append hfirst, ih hothers]

/-- The mark never stands at the end of parts that it joins. -/
theorem getLast?_joined_ne {mark : Char} {first : List Char} {others : List (List Char)}
    (h : ∀ part ∈ first :: others, part ≠ [] ∧ mark ∉ part) :
    (first ++ others.flatMap (mark :: ·)).getLast? ≠ some mark := by
  induction others generalizing first with
  | nil =>
    intro hlast
    rw [List.flatMap_nil, List.append_nil] at hlast
    exact (h first List.mem_cons_self).2 (List.mem_of_getLast? hlast)
  | cons next others ih =>
    have behind := ih fun part hpart => h part (List.mem_cons_of_mem first hpart)
    have some : next ++ others.flatMap (mark :: ·) ≠ [] :=
      List.append_ne_nil_of_left_ne_nil (h next (by simp)).1 _
    rwa [List.flatMap_cons, List.cons_append,
      List.getLast?_append_of_ne_nil _ (List.cons_ne_nil _ _), List.getLast?_cons_of_ne_nil some]

theorem not_mem_of_mem_parts {mark : Char} {cs part : List Char} (h : part ∈ parts mark cs) :
    mark ∉ part := by
  induction cs generalizing part with
  | nil =>
    cases List.mem_singleton.mp h
    exact List.not_mem_nil
  | cons c cs ih =>
    rw [parts] at h
    split at h
    next =>
      rcases List.mem_cons.mp h with rfl | h
      · exact List.not_mem_nil
      · exact ih h
    next hne =>
      split at h
      next hnil => exact absurd hnil (parts_ne_nil mark cs)
      next first others hparts =>
        rcases List.mem_cons.mp h with rfl | h
        · exact List.not_mem_cons_of_ne_of_not_mem (Ne.symm hne) (ih (hparts ▸ List.mem_cons_self))
        · exact ih (hparts ▸ List.mem_cons_of_mem first h)

namespace Path

/-- Each component can be the name of a node. -/
def Valid (p : Path) : Prop :=
  ∀ c ∈ p.components, validComponent c = true

theorem validComponent_iff_chars {name : String} : validComponent name = true ↔
    name.toList ≠ [] ∧ '/' ∉ name.toList ∧ name.toList ≠ ['.'] ∧ name.toList ≠ ['.', '.'] := by
  have same : ∀ cs, name = String.ofList cs ↔ name.toList = cs := by
    intro cs
    rw [← String.toList_inj, String.toList_ofList]
  have empty : name = "" ↔ name.toList = [] := same []
  have dot : name = "." ↔ name.toList = ['.'] := same ['.']
  have dots : name = ".." ↔ name.toList = ['.', '.'] := same ['.', '.']
  simp only [validComponent, Bool.and_eq_true, bne_iff_ne, Bool.not_eq_true',
    List.contains_eq_mem, decide_eq_false_iff_not, ne_eq, empty, dot, dots, and_assoc]

/-- A part without slashes is kept just when it can be a component. -/
theorem checkPart_eq_ok_iff {part : List Char} (h : '/' ∉ part) {c : String} :
    checkPart part = .ok c ↔ part = c.toList ∧ validComponent c = true := by
  have refused : validComponent (String.ofList part) = true ↔
      part ≠ [] ∧ part ≠ ['.'] ∧ part ≠ ['.', '.'] := by
    simp [validComponent_iff_chars, h]
  rw [checkPart]
  constructor
  · intro hcheck
    split at hcheck
    next => cases hcheck
    next hempty =>
      split at hcheck
      next => cases hcheck
      next hdots =>
        cases hcheck
        exact ⟨String.toList_ofList.symm, refused.mpr ⟨hempty, not_or.mp hdots⟩⟩
  · rintro ⟨rfl, hvalid⟩
    obtain ⟨hempty, hdots⟩ := refused.mp (by rwa [String.ofList_toList])
    rw [if_neg hempty, if_neg (not_or.mpr hdots), String.ofList_toList]

theorem ofChars_slash {rest : List Char} (hne : rest ≠ []) (hlast : rest.getLast? ≠ some '/') :
    ofChars ('/' :: rest) = ((parts '/' rest).mapM checkPart).map Path.mk := by
  have same : withoutLastSlash rest = rest := if_neg fun slash => hlast slash.2
  simp only [ofChars, same, if_true, if_neg hne]

/-- The text of a path below the root comes apart into its components. -/
theorem Valid.chars_eq {p : Path} (h : p.Valid) (hne : p ≠ root) :
    ∃ rest, p.chars = '/' :: rest ∧ rest ≠ [] ∧ rest.getLast? ≠ some '/' ∧
      (parts '/' rest).mapM checkPart = .ok p.components := by
  obtain ⟨components⟩ := p
  cases components with
  | nil => exact absurd rfl hne
  | cons first others =>
    let texts := others.map String.toList
    have mapped : first.toList :: texts = (first :: others).map String.toList := rfl
    -- No component is empty or has a slash, so the text comes apart where it was joined.
    have each : ∀ part ∈ first.toList :: texts, part ≠ [] ∧ '/' ∉ part := by
      intro part hpart
      obtain ⟨c, hc, rfl⟩ := List.mem_map.mp (mapped ▸ hpart)
      obtain ⟨hne, hslash, -⟩ := validComponent_iff_chars.mp (h c hc)
      exact ⟨hne, hslash⟩
    have chars : Path.chars ⟨first :: others⟩ =
        '/' :: (first.toList ++ texts.flatMap ('/' :: ·)) := by
      simp [Path.chars, isRoot, texts, List.flatMap_map]
    have some : first.toList ++ texts.flatMap ('/' :: ·) ≠ [] :=
      List.append_ne_nil_of_left_ne_nil (each _ List.mem_cons_self).1 _
    refine ⟨_, chars, some, getLast?_joined_ne each, ?_⟩
    rw [parts_joined fun part hpart => (each part hpart).2, mapM_eq_ok_iff, mapped,
      List.forall₂_map_left_iff, List.forall₂_same]
    intro c hc
    have slash := (validComponent_iff_chars.mp (h c hc)).2.1
    exact (checkPart_eq_ok_iff slash).mpr ⟨rfl, h c hc⟩

theorem ofChars_chars {p : Path} (h : p.Valid) : ofChars p.chars = .ok p := by
  by_cases hne : p = root
  · subst hne
    rfl
  · obtain ⟨rest, chars, some, last, read⟩ := h.chars_eq hne
    rw [chars, ofChars_slash some last, read]
    rfl

theorem parse_text {p : Path} (h : p.Valid) : parse p.text = .ok p := by
  rw [parse, text, String.toList_ofList, ofChars_chars h]

theorem valid_of_ofChars {cs : List Char} {p : Path} (h : ofChars cs = .ok p) : p.Valid := by
  cases cs with
  | nil => cases h
  | cons c rest =>
    rw [ofChars] at h
    split at h
    next =>
      simp only at h
      split at h
      next =>
        cases h
        exact fun c hc => by cases hc
      next =>
        obtain ⟨components, hparts, rfl⟩ := exists_of_map_eq_ok h
        intro c hc
        obtain ⟨part, hpart, hcheck⟩ := exists_of_mem_of_mapM hparts hc
        exact ((checkPart_eq_ok_iff (not_mem_of_mem_parts hpart)).mp hcheck).2
    next => cases h

theorem valid_of_parse {s : String} {p : Path} (h : parse s = .ok p) : p.Valid := by
  rw [parse] at h
  split at h
  next hread =>
    cases h
    exact valid_of_ofChars hread
  next => cases h

end Path

namespace Pattern

@[simp] theorem text_ofComponent (c : String) : (Segment.ofComponent c).text = c := by
  rw [Segment.ofComponent]
  split
  next h => exact h.symm
  next => rfl

theorem parse_text_of_parse {s : String} {p : Pattern} (h : parse s = .ok p) :
    parse p.text = .ok p := by
  obtain ⟨path, hpath, h⟩ := exists_of_bind_eq_ok h
  cases h
  have text : Pattern.text ⟨path.components.map Segment.ofComponent⟩ = path.text := by
    simp [Pattern.text, Function.comp_def]
  rw [text, parse, Path.parse_text (Path.valid_of_parse hpath)]
  rfl

theorem head?_text (p : Pattern) : p.text.toList.head? = some '/' := by
  obtain ⟨segments⟩ := p
  rw [text, Path.text, String.toList_ofList]
  cases segments with
  | nil => rfl
  | cons first others => rfl

end Pattern

end HomeTree
