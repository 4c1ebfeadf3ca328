import HomeTree.Path.Basic
import Mathlib.Data.List.Infix

namespace HomeTree.Path

theorem checkComponent_eq_ok_iff {name : String} :
    checkComponent name = .ok () ↔ validComponent name = true := by
  rw [checkComponent]
  cases validComponent name <;> simp

@[simp] theorem components_root : root.components = [] := rfl

@[simp] theorem components_child (p : Path) (name : String) :
    (p.child name).components = p.components ++ [name] := rfl

theorem ext_components {p q : Path} (h : p.components = q.components) : p = q := by
  cases p
  cases q
  exact congrArg Path.mk h

@[simp] theorem name?_child (p : Path) (name : String) : (p.child name).name? = some name := by
  simp [name?]

@[simp] theorem name?_root : root.name? = none := rfl

@[simp] theorem parent?_child (p : Path) (name : String) : (p.child name).parent? = some p := by
  simp [parent?, isRoot]

@[simp] theorem parent?_root : root.parent? = none := rfl

@[simp] theorem depth_child (p : Path) (name : String) : (p.child name).depth = p.depth + 1 := by
  simp [depth]

@[simp] theorem depth_root : root.depth = 0 := rfl

theorem child_ne_root (p : Path) (name : String) : p.child name ≠ root := by
  intro h
  simpa using congrArg Path.components h

theorem child_inj {p q : Path} {name other : String} :
    p.child name = q.child other ↔ p = q ∧ name = other := by
  constructor
  · intro h
    have := List.append_inj' (congrArg Path.components h) rfl
    exact ⟨ext_components this.1, by simpa using this.2⟩
  · rintro ⟨rfl, rfl⟩
    rfl

theorem eq_root_or_child (p : Path) :
    p = root ∨ ∃ (q : Path) (name : String), p = q.child name := by
  obtain ⟨components⟩ := p
  rcases List.eq_nil_or_concat components with rfl | ⟨above, name, rfl⟩
  · exact Or.inl rfl
  · exact Or.inr ⟨⟨above⟩, name, ext_components (by simp)⟩

theorem eq_child_of_parent? {p q : Path} (h : q.parent? = some p) : ∃ name, q = p.child name := by
  rcases eq_root_or_child q with rfl | ⟨r, name, rfl⟩
  · simp at h
  · cases Option.some.inj ((parent?_child r name).symm.trans h)
    exact ⟨name, rfl⟩

theorem childInduction {motive : Path → Prop} (root : motive Path.root)
    (child : ∀ p name, motive p → motive (p.child name)) (p : Path) : motive p := by
  obtain ⟨components⟩ := p
  induction components using List.reverseRecOn with
  | nil => exact root
  | append_singleton above name ih => exact child ⟨above⟩ name ih

/-- `q` continues `p` by at least one name. -/
def Above (p q : Path) : Prop :=
  p.components <+: q.components ∧ p ≠ q

instance (p q : Path) : Decidable (p.Above q) :=
  inferInstanceAs (Decidable (_ ∧ _))

theorem above_iff {p q : Path} :
    p.Above q ↔ ∃ name rest, q.components = p.components ++ name :: rest := by
  constructor
  · rintro ⟨⟨rest, hr⟩, hne⟩
    cases rest with
    | nil => exact absurd (ext_components (by simpa using hr)) hne
    | cons name rest => exact ⟨name, rest, hr.symm⟩
  · rintro ⟨name, rest, h⟩
    refine ⟨⟨name :: rest, h.symm⟩, ?_⟩
    rintro rfl
    simp at h

theorem Above.depth_lt {p q : Path} (h : p.Above q) : p.depth < q.depth := by
  obtain ⟨name, rest, hq⟩ := above_iff.mp h
  simp [depth, hq]

theorem not_above_self (p : Path) : ¬p.Above p :=
  fun h => h.2 rfl

theorem not_above_root (p : Path) : ¬p.Above root := by
  intro h
  have := h.depth_lt
  simp at this

theorem Above.trans {p q r : Path} (h : p.Above q) (h' : q.Above r) : p.Above r := by
  refine ⟨h.1.trans h'.1, ?_⟩
  rintro rfl
  have := h.depth_lt
  have := h'.depth_lt
  omega

theorem above_child (p : Path) (name : String) : p.Above (p.child name) :=
  above_iff.mpr ⟨name, [], rfl⟩

/-- What is above a child is above its parent or the parent itself. -/
theorem above_child_iff {p q : Path} {name : String} :
    p.Above (q.child name) ↔ p = q ∨ p.Above q := by
  constructor
  · rintro ⟨hp, hne⟩
    rcases List.prefix_concat_iff.mp hp with h | h
    · exact absurd (ext_components h) hne
    · by_cases heq : p = q
      · exact Or.inl heq
      · exact Or.inr ⟨h, heq⟩
  · rintro (rfl | h)
    · exact above_child p name
    · exact h.trans (above_child q name)

end HomeTree.Path
