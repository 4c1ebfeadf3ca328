import HomeTree.Proofs.Path.Above
import Mathlib.Data.String.Basic
import Mathlib.Order.WithBot

namespace HomeTree.Path

/-- `q` is `p` or below it. -/
def Covers (p q : Path) : Prop :=
  p.components <+: q.components

theorem covers_iff {p q : Path} : p.Covers q ↔ q = p ∨ p.Above q := by
  constructor
  · intro h
    by_cases heq : q = p
    · exact Or.inl heq
    · exact Or.inr ⟨h, fun eq => heq eq.symm⟩
  · rintro (rfl | h)
    · exact List.prefix_rfl
    · exact h.1

theorem covers_self (p : Path) : p.Covers p :=
  covers_iff.mpr (Or.inl rfl)

theorem Above.covers {p q : Path} (h : p.Above q) : p.Covers q :=
  h.1

theorem above_of_covers_child {p q : Path} {name : String} (h : (p.child name).Covers q) :
    p.Above q := by
  rcases covers_iff.mp h with rfl | h
  · exact above_child p name
  · exact (above_child p name).trans h

theorem child_covers_iff {p q : Path} {name : String} :
    (p.child name).Covers q ↔ ∃ rest, q.components = p.components ++ name :: rest := by
  constructor
  · rintro ⟨rest, h⟩
    exact ⟨rest, by simp [← h]⟩
  · rintro ⟨rest, h⟩
    exact ⟨rest, by simp [h]⟩

/-- Nothing is at or below two children of one path. -/
theorem child_covers_inj {p q : Path} {name other : String} (h : (p.child name).Covers q)
    (h' : (p.child other).Covers q) : name = other := by
  obtain ⟨rest, hq⟩ := child_covers_iff.mp h
  obtain ⟨rest', hq'⟩ := child_covers_iff.mp h'
  have := List.append_cancel_left (hq.symm.trans hq')
  exact (List.cons.inj this).1

theorem Above.components_lt {p q : Path} (h : p.Above q) : p.components < q.components := by
  obtain ⟨name, rest, hq⟩ := above_iff.mp h
  have hlt : p.components ++ [] < p.components ++ name :: rest :=
    List.append_left_lt (List.nil_lt_cons name rest)
  simpa [hq] using hlt

theorem components_lt_of_sibling {p q r : Path} {name other : String} (h : name < other)
    (hq : (p.child name).Covers q) (hr : (p.child other).Covers r) :
    q.components < r.components := by
  obtain ⟨rest, hq⟩ := child_covers_iff.mp hq
  obtain ⟨rest', hr⟩ := child_covers_iff.mp hr
  rw [hq, hr]
  exact List.append_left_lt (List.cons_lt_cons_iff.mpr (Or.inl h))

/-- The names of a path and behind them what is greater than every name. -/
def closing (p : Path) : List (WithTop String) :=
  p.components.map WithTop.some ++ [⊤]

theorem closing_injective {p q : Path} (h : p.closing = q.closing) : p = q := by
  have hmap := (List.append_inj' h rfl).1
  exact ext_components (List.map_injective_iff.mpr WithTop.coe_injective hmap)

theorem closing_of_components {p q : Path} {name : String} {rest : List String}
    (h : q.components = p.components ++ name :: rest) :
    q.closing = p.components.map WithTop.some ++
      ((name : WithTop String) :: (rest.map WithTop.some ++ [⊤])) := by
  simp [closing, h]

theorem Above.closing_lt {p q : Path} (h : p.Above q) : q.closing < p.closing := by
  obtain ⟨name, rest, hq⟩ := above_iff.mp h
  rw [closing_of_components hq, closing]
  exact List.append_left_lt (List.cons_lt_cons_iff.mpr (Or.inl (WithTop.coe_lt_top name)))

theorem closing_lt_of_sibling {p q r : Path} {name other : String} (h : name < other)
    (hq : (p.child name).Covers q) (hr : (p.child other).Covers r) : q.closing < r.closing := by
  obtain ⟨rest, hq⟩ := child_covers_iff.mp hq
  obtain ⟨rest', hr⟩ := child_covers_iff.mp hr
  rw [closing_of_components hq, closing_of_components hr]
  exact List.append_left_lt (List.cons_lt_cons_iff.mpr (Or.inl (WithTop.coe_lt_coe.mpr h)))

/-- `p` is below `q`, or in a branch of which `q` is in a later sibling. -/
def ClosesBefore (p q : Path) : Prop :=
  q.Above p ∨ ∃ (r : Path) (name other : String),
    name < other ∧ (r.child name).Covers p ∧ (r.child other).Covers q

/-- One of two paths continues the other, or they part at some path. -/
theorem covers_or_part (p q : Path) : p.Covers q ∨ q.Covers p ∨
    ∃ (r : Path) (name other : String),
      name ≠ other ∧ (r.child name).Covers p ∧ (r.child other).Covers q := by
  have part : ∀ xs ys : List String, xs <+: ys ∨ ys <+: xs ∨
      ∃ (common : List String) (x y : String) (xs' ys' : List String),
        x ≠ y ∧ xs = common ++ x :: xs' ∧ ys = common ++ y :: ys' := by
    intro xs
    induction xs with
    | nil => exact fun ys => .inl List.nil_prefix
    | cons x xs ih =>
      intro ys
      cases ys with
      | nil => exact .inr (.inl List.nil_prefix)
      | cons y ys =>
        by_cases h : x = y
        · subst h
          simp only [List.prefix_cons_inj]
          refine (ih ys).imp_right (.imp_right ?_)
          rintro ⟨common, a, b, xs', ys', hne, rfl, rfl⟩
          exact ⟨x :: common, a, b, xs', ys', hne, rfl, rfl⟩
        · exact .inr (.inr ⟨[], x, y, xs, ys, h, rfl, rfl⟩)
  refine (part p.components q.components).imp_right (.imp_right ?_)
  rintro ⟨common, x, y, xs, ys, hne, hp, hq⟩
  exact ⟨⟨common⟩, x, y, hne, child_covers_iff.mpr ⟨xs, hp⟩, child_covers_iff.mpr ⟨ys, hq⟩⟩

theorem closesBefore_of_closing_lt {p q : Path} (h : p.closing < q.closing) :
    p.ClosesBefore q := by
  rcases covers_or_part p q with hpq | hqp | ⟨r, name, other, hne, hp, hq⟩
  · rcases covers_iff.mp hpq with rfl | habove
    · exact absurd h (lt_irrefl _)
    · exact absurd habove.closing_lt (lt_asymm h)
  · rcases covers_iff.mp hqp with rfl | habove
    · exact absurd h (lt_irrefl _)
    · exact .inl habove
  · rcases lt_or_gt_of_ne hne with hlt | hgt
    · exact .inr ⟨r, name, other, hlt, hp, hq⟩
    · exact absurd (closing_lt_of_sibling hgt hq hp) (lt_asymm h)

theorem not_covers_of_closing_lt {p q : Path} (h : p.closing < q.closing) : ¬p.Covers q := by
  intro hcovers
  rcases covers_iff.mp hcovers with rfl | habove
  · exact lt_irrefl _ h
  · exact lt_asymm h habove.closing_lt

end HomeTree.Path
