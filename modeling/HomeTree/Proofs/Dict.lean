import HomeTree.Dict
import Mathlib.Data.List.Sort

namespace HomeTree.Dict

variable {α β : Type}

theorem lookup_cons_ite (head : String × α) (rest : List (String × α)) (key : String) :
    (head :: rest).lookup key = if key = head.1 then some head.2 else rest.lookup key := by
  obtain ⟨name, value⟩ := head
  by_cases h : key = name
  · simp [h]
  · have hb : (key == name) = false := by simpa using h
    simp [List.lookup_cons, hb, h]

theorem lookup_insertEntry (entries : List (String × α)) (key other : String) (value : α) :
    (insertEntry key value entries).lookup other =
      if other = key then some value else entries.lookup other := by
  induction entries with
  | nil => rw [insertEntry, lookup_cons_ite]
  | cons head rest ih =>
    simp only [insertEntry]
    split
    next hlt => rw [lookup_cons_ite]
    next hlt =>
      split
      next heq =>
        simp only [lookup_cons_ite]
        by_cases h : other = key
        · simp [h]
        · simp [h, show other ≠ head.1 from heq ▸ h]
      next hne =>
        simp only [lookup_cons_ite, ih]
        by_cases h : other = head.1
        · have hk : other ≠ key := fun eq => hne (eq.symm.trans h)
          simp [← h, hk]
        · simp [h]

@[simp] theorem get?_empty (key : String) : (∅ : Dict α).get? key = none := rfl

theorem get?_insert (d : Dict α) (key other : String) (value : α) :
    (d.insert key value).get? other = if other = key then some value else d.get? other :=
  lookup_insertEntry d.entries key other value

theorem mem_entries_iff {d : Dict α} {key : String} {value : α} :
    (key, value) ∈ d.entries ↔ d.get? key = some value := by
  obtain ⟨entries, ordered⟩ := d
  change (key, value) ∈ entries ↔ entries.lookup key = some value
  induction entries with
  | nil => simp
  | cons head rest ih =>
    obtain ⟨above, ordered⟩ := List.pairwise_cons.mp ordered
    rw [List.mem_cons, lookup_cons_ite]
    by_cases h : key = head.1
    · have notBelow : (key, value) ∉ rest := by
        intro hm
        exact String.lt_irrefl _ (h ▸ above _ hm)
      rw [if_pos h, or_iff_left notBelow, Option.some.injEq, Prod.ext_iff]
      simp [h, eq_comm]
    · have hne : (key, value) ≠ head := fun eq => h (by rw [← eq])
      simp only [hne, false_or, h, if_false]
      exact ih ordered

theorem get?_erase (d : Dict α) (key other : String) :
    (d.erase key).get? other = if other = key then none else d.get? other := by
  apply Option.ext
  intro value
  rw [← mem_entries_iff]
  by_cases h : other = key
  · simp [erase, h]
  · simp [erase, h, mem_entries_iff]

theorem get?_map (f : α → β) (d : Dict α) (key : String) :
    (d.map f).get? key = (d.get? key).map f := by
  apply Option.ext
  intro value
  rw [← mem_entries_iff, Option.map_eq_some_iff]
  simp only [map, List.mem_map, Prod.exists, mem_entries_iff, Prod.mk.injEq]
  constructor
  · rintro ⟨name, found, hf, rfl, rfl⟩
    exact ⟨found, hf, rfl⟩
  · rintro ⟨found, hf, rfl⟩
    exact ⟨key, found, hf, rfl, rfl⟩

/-- A dictionary is determined by what it answers. -/
theorem ext_get? {d e : Dict α} (h : ∀ key, d.get? key = e.get? key) : d = e := by
  have hm : ∀ entry, entry ∈ d.entries ↔ entry ∈ e.entries := by
    rintro ⟨key, value⟩
    rw [mem_entries_iff, mem_entries_iff, h]
  have : Std.Irrefl (fun a b : String × α => a.1 < b.1) := ⟨fun a => String.lt_irrefl a.1⟩
  have : Std.Antisymm (fun a b : String × α => a.1 < b.1) :=
    ⟨fun a b hab hba => absurd hba (String.lt_asymm hab)⟩
  have eq : d.entries = e.entries := d.ordered.eq_of_mem_iff e.ordered hm
  obtain ⟨entries, ordered⟩ := d
  obtain ⟨others, ordered'⟩ := e
  cases eq
  rfl

theorem map_insert (f : α → β) (d : Dict α) (key : String) (value : α) :
    (d.insert key value).map f = (d.map f).insert key (f value) := by
  apply ext_get?
  intro other
  rw [get?_map, get?_insert, get?_insert, get?_map]
  split <;> rfl

theorem map_ofList (f : α → β) (entries : List (String × α)) :
    (ofList entries).map f = ofList (entries.map fun e => (e.1, f e.2)) := by
  have fold : ∀ d : Dict α, (entries.foldl (fun d e => d.insert e.1 e.2) d).map f =
      (entries.map fun e => (e.1, f e.2)).foldl (fun d e => d.insert e.1 e.2) (d.map f) := by
    induction entries with
    | nil => exact fun d => rfl
    | cons head rest ih =>
      intro d
      rw [List.foldl_cons, ih, map_insert, List.map_cons, List.foldl_cons]
  exact fold empty

theorem contains_iff {d : Dict α} {key : String} :
    d.contains key = true ↔ ∃ value, d.get? key = some value := by
  simp [contains, Option.isSome_iff_exists]

theorem contains_eq_false_iff {d : Dict α} {key : String} :
    d.contains key = false ↔ d.get? key = none := by
  simp [contains]

theorem get?_eq_none_iff {d : Dict α} {key : String} :
    d.get? key = none ↔ ∀ e ∈ d.entries, e.1 ≠ key := by
  rw [Option.eq_none_iff_forall_ne_some]
  constructor
  · rintro h e he rfl
    exact h e.2 (mem_entries_iff.mp he)
  · exact fun h value hvalue => h (key, value) (mem_entries_iff.mpr hvalue) rfl

theorem isEmpty_iff {d : Dict α} : d.isEmpty = true ↔ ∀ key, d.get? key = none := by
  constructor
  · intro h key
    have : d.entries = [] := List.isEmpty_iff.mp h
    simp [get?, this]
  · intro h
    apply List.isEmpty_iff.mpr
    apply List.eq_nil_iff_forall_not_mem.mpr
    rintro ⟨key, value⟩ hm
    rw [mem_entries_iff, h] at hm
    cases hm

theorem ofList_entries (d : Dict α) : ofList d.entries = d := by
  have fold : ∀ (entries : List (String × α)) (e : Dict α) (key : String),
      entries.Pairwise (fun a b => a.1 < b.1) →
        (entries.foldl (fun e x => e.insert x.1 x.2) e).get? key =
          (entries.lookup key).or (e.get? key) := by
    intro entries
    induction entries with
    | nil => simp
    | cons head rest ih =>
      intro e key ordered
      obtain ⟨above, ordered⟩ := List.pairwise_cons.mp ordered
      rw [List.foldl_cons, ih _ _ ordered, get?_insert, lookup_cons_ite]
      by_cases h : key = head.1
      · have notBelow : rest.lookup key = none := by
          rw [List.lookup_eq_none_iff]
          intro m hm
          apply bne_iff_ne.mpr
          intro eq
          have hlt := above m hm
          exact String.lt_irrefl _ (h ▸ eq ▸ hlt)
        simp [h, h ▸ notBelow]
      · simp [h]
  apply ext_get?
  intro key
  rw [ofList, fold d.entries empty key d.ordered]
  simp [get?, empty]

end HomeTree.Dict

namespace HomeTree.NameSet

theorem get?_ofList (names : List String) (key : String) :
    (ofList names).get? key = if key ∈ names then some () else none := by
  have fold : ∀ (names : List String) (d : NameSet),
      ((names.map fun name => (name, ())).foldl (fun d e => d.insert e.1 e.2) d).get? key =
        if key ∈ names then some () else d.get? key := by
    intro names
    induction names with
    | nil => simp
    | cons name rest ih =>
      intro d
      rw [List.map_cons, List.foldl_cons, ih, Dict.get?_insert]
      by_cases h : key = name <;> simp [h]
  exact fold names Dict.empty

theorem mem_toList {names : NameSet} {name : String} :
    name ∈ toList names ↔ names.get? name = some () := by
  rw [toList, Dict.keys, List.mem_map]
  constructor
  · rintro ⟨e, he, rfl⟩
    exact Dict.mem_entries_iff.mp he
  · intro h
    exact ⟨(name, ()), Dict.mem_entries_iff.mpr h, rfl⟩

theorem ofList_toList (names : NameSet) : ofList (toList names) = names := by
  have entries : (toList names).map (fun name => (name, ())) = names.entries := by
    rw [toList, Dict.keys, List.map_map]
    exact List.map_id names.entries
  rw [ofList, entries, Dict.ofList_entries]

end HomeTree.NameSet
