import HomeTree.Proofs.Selector.Parsing

namespace HomeTree

/-- A kind, if there is one, and the names of the filters are words. -/
structure Step.Proper (s : Step) : Prop where
  kind : ∀ k, s.kind = some k → Selector.IsWord k.toList
  names : ∀ f ∈ s.filters, Selector.IsWord f.name.toList

instance (s : Step) : Decidable s.Proper :=
  decidable_of_iff ((∀ k ∈ s.kind, Selector.IsWord k.toList) ∧
      ∀ f ∈ s.filters, Selector.IsWord f.name.toList)
    ⟨fun ⟨kind, names⟩ => ⟨kind, names⟩, fun ⟨kind, names⟩ => ⟨kind, names⟩⟩

namespace Selector

/-- At least one chain, with at least one step each. -/
def Proper (a : Selector) : Prop :=
  a.chains ≠ [] ∧ ∀ c ∈ a.chains, c.steps ≠ [] ∧ ∀ s ∈ c.steps, s.Proper

instance (a : Selector) : Decidable a.Proper := inferInstanceAs (Decidable (_ ∧ _))

theorem blanks_nil : Blanks [] :=
  fun _ hc => by cases hc

theorem quotedText_escapedChars (cs : List Char) : QuotedText '"' (escapedChars cs) cs := by
  induction cs with
  | nil => exact .nil
  | cons c cs ih =>
    rw [escapedChars, List.flatMap_cons]
    by_cases h : c = '\\' ∨ c = '"'
    · rw [if_pos h]
      exact .escaped ih
    · rw [if_neg h]
      exact .plain (fun hc => h (.inr hc)) (fun hc => h (.inl hc)) ih

theorem filterText_chars {f : Filter} (h : IsWord f.name.toList) : FilterText f.chars f := by
  obtain ⟨name, value⟩ := f
  cases value with
  | none =>
    have text := FilterText.present blanks_nil h blanks_nil
    simpa [Filter.chars] using text
  | some v =>
    have quoted : ValueText ('"' :: escapedChars v.toList ++ ['"']) v.toList :=
      .quoted (.inl rfl) (quotedText_escapedChars v.toList)
    have text := FilterText.equal blanks_nil h blanks_nil blanks_nil quoted blanks_nil
    simpa [Filter.chars] using text

theorem inRow_flatMap {α : Type} {P : List Char → α → Prop} {chars : α → List Char} {xs : List α}
    (h : ∀ x ∈ xs, P (chars x) x) : InRow P (xs.flatMap chars) xs := by
  induction xs with
  | nil => exact .nil
  | cons x xs ih =>
    obtain ⟨first, others⟩ := List.forall_mem_cons.mp h
    rw [List.flatMap_cons]
    exact .cons first (ih others)

theorem stepText_chars {s : Step} (h : s.Proper) : StepText s.chars s := by
  obtain ⟨kind, filters⟩ := s
  have row : InRow FilterText (filters.flatMap Filter.chars) filters :=
    inRow_flatMap fun f hf => filterText_chars (h.names f hf)
  cases kind with
  | some k =>
    have text := StepText.kind (h.kind k rfl) row
    rwa [String.ofList_toList] at text
  | none =>
    cases filters with
    | nil => exact .any row
    | cons f fs => exact .filters row (List.cons_ne_nil f fs)

/-- Texts with a mark and blanks between them, when blanks around each of them do not matter. -/
theorem separated_joined {α : Type} {P : List Char → α → Prop} {chars : α → List Char} {mark : Char}
    {before behind : List Char} (hbefore : Blanks before) (hbehind : Blanks behind) {xs : List α}
    (hne : xs ≠ [])
    (each : ∀ x ∈ xs, ∀ {a b}, Blanks a → Blanks b → P (a ++ chars x ++ b) x) {a b : List Char}
    (ha : Blanks a) (hb : Blanks b) :
    Separated mark P (a ++ joined (before ++ mark :: behind) (xs.map chars) ++ b) xs := by
  induction xs generalizing a with
  | nil => exact absurd rfl hne
  | cons x xs ih =>
    obtain ⟨first, others⟩ := List.forall_mem_cons.mp each
    cases xs with
    | nil => exact .one (first ha hb)
    | cons y ys =>
      have more := Separated.more (first ha hbefore) (ih (List.cons_ne_nil y ys) others hbehind)
      simpa [joined] using more

theorem chainText_chars {c : Chain} (hne : c.steps ≠ []) (h : ∀ s ∈ c.steps, s.Proper)
    {a b : List Char} (ha : Blanks a) (hb : Blanks b) : ChainText (a ++ c.chars ++ b) c := by
  have blank : Blanks [' '] := by simp [Blanks, isBlank]
  exact separated_joined blank blank hne
    (fun s hs _ _ ha hb => .mk ha (stepText_chars (h s hs)) hb) ha hb

theorem derives_text {a : Selector} (h : a.Proper) : Derives a.text a := by
  have blank : Blanks [' '] := by simp [Blanks, isBlank]
  have text : SelectorText ([] ++ a.chars ++ []) a :=
    separated_joined blanks_nil blank h.1
      (fun c hc _ _ ha hb => chainText_chars (h.2 c hc).1 (h.2 c hc).2 ha hb) blanks_nil blanks_nil
  rw [List.nil_append, List.append_nil] at text
  rwa [Derives, Selector.text, String.toList_ofList]

theorem parse_text {a : Selector} (h : a.Proper) : parse a.text = .ok a :=
  parse_eq_ok_iff.mpr (derives_text h)

section

variable {α : Type} {P : List Char → α → Prop} {text : List Char} {xs : List α}

theorem InRow.exists_text (h : InRow P text xs) : ∀ x ∈ xs, ∃ t, P t x := by
  induction h with
  | nil => exact fun x hx => by cases hx
  | cons first _ ih => exact List.forall_mem_cons.mpr ⟨⟨_, first⟩, ih⟩

theorem Separated.exists_text {mark : Char} (h : Separated mark P text xs) :
    xs ≠ [] ∧ ∀ x ∈ xs, ∃ t, P t x := by
  induction h with
  | one first => exact ⟨List.cons_ne_nil _ _, List.forall_mem_singleton.mpr ⟨_, first⟩⟩
  | more first _ ih => exact ⟨List.cons_ne_nil _ _, List.forall_mem_cons.mpr ⟨⟨_, first⟩, ih.2⟩⟩

end

theorem FilterText.isWord_name {text : List Char} {f : Filter} (h : FilterText text f) :
    IsWord f.name.toList := by
  cases h with
  | present _ hname _ => simpa using hname
  | equal _ hname _ _ _ _ => simpa using hname

theorem StepText.proper {text : List Char} {s : Step} (h : StepText text s) : s.Proper := by
  have named : ∀ {text fs}, InRow FilterText text fs → ∀ f ∈ fs, IsWord f.name.toList := by
    intro text fs row f hf
    obtain ⟨t, ht⟩ := row.exists_text f hf
    exact ht.isWord_name
  cases h with
  | any row => exact ⟨by simp, named row⟩
  | kind hname row =>
    refine ⟨fun k hk => ?_, named row⟩
    cases hk
    simpa using hname
  | filters row _ => exact ⟨by simp, named row⟩

theorem Derives.proper {s : String} {a : Selector} (h : Derives s a) : a.Proper := by
  obtain ⟨hne, chains⟩ := Separated.exists_text h
  refine ⟨hne, fun c hc => ?_⟩
  obtain ⟨text, hchain⟩ := chains c hc
  obtain ⟨hsteps, steps⟩ := Separated.exists_text hchain
  refine ⟨hsteps, fun s hs => ?_⟩
  obtain ⟨_, hpadded⟩ := steps s hs
  obtain ⟨-, hstep, -⟩ := hpadded
  exact hstep.proper

theorem proper_of_parse {s : String} {a : Selector} (h : parse s = .ok a) : a.Proper :=
  (parse_eq_ok_iff.mp h).proper

/-- No selector begins with a slash. -/
theorem head?_ne_slash {s : String} {a : Selector} (h : parse s = .ok a) :
    s.toList.head? ≠ some '/' := by
  intro hslash
  obtain ⟨rest, hrest⟩ := List.head?_eq_some_iff.mp hslash
  have fault : ofChars ('/' :: rest) = .error ⟨.unexpected '/', '/' :: rest⟩ := rfl
  rw [parse, hrest, fault] at h
  cases h

end Selector

end HomeTree
