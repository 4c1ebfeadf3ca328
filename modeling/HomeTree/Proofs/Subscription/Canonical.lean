import HomeTree.Proofs.Path.Text
import HomeTree.Proofs.Selector.Canonical
import HomeTree.Subscription.Target

namespace HomeTree.Target

theorem parse_eq_ok_cases {s : String} {t : Target} (h : parse s = .ok t) :
    (∃ p, t = .path p ∧ Pattern.parse s = .ok p) ∨
      ∃ a, t = .selector a ∧ Selector.parse s = .ok a := by
  rw [parse] at h
  split at h
  next =>
    obtain ⟨p, hp, rfl⟩ := exists_of_map_eq_ok h
    exact .inl ⟨p, rfl, hp⟩
  next =>
    obtain ⟨a, ha, rfl⟩ := exists_of_map_eq_ok h
    exact .inr ⟨a, rfl, ha⟩

theorem parse_path_text {s : String} {p : Pattern} (h : Pattern.parse s = .ok p) :
    parse p.text = .ok (.path p) := by
  rw [parse, if_pos p.head?_text, Pattern.parse_text_of_parse h]
  rfl

theorem parse_selector_text {a : Selector} (h : a.Proper) : parse a.text = .ok (.selector a) := by
  have read := Selector.parse_text h
  rw [parse, if_neg (Selector.head?_ne_slash read), read]
  rfl

/-- A selector of which only the kinds and the names of attributes are words is read back from its
canonical text, and so is every selector that is read; a target is what its canonical text says,
so that it watches the same changes. -/
theorem canonical_text_read_back :
    (∀ a : Selector, a.Proper → Selector.parse a.text = .ok a) ∧
      (∀ s a, Selector.parse s = .ok a → a.Proper) ∧
      ∀ s t, parse s = .ok t → parse t.text = .ok t := by
  refine ⟨fun a => Selector.parse_text, fun s a => Selector.proper_of_parse, fun s t h => ?_⟩
  rcases parse_eq_ok_cases h with ⟨p, rfl, hp⟩ | ⟨a, rfl, ha⟩
  · exact parse_path_text hp
  · exact parse_selector_text (Selector.proper_of_parse ha)

/-- A name without characters, and below it a value with a quote, brackets and a backslash. -/
def quoting : Selector :=
  ⟨[⟨[⟨none, [⟨"name", some ""⟩]⟩, ⟨some "lamp-2", [⟨"on", none⟩, ⟨"note", some "a\"] > \\"⟩]⟩]⟩,
    ⟨[⟨none, []⟩]⟩]⟩

theorem canonical_text_read_back_quoting :
    (quoting.Proper ∧ Selector.parse quoting.text = .ok quoting) ∧
      ∃ t, parse "lamp[ note = \"]\" ] " = .ok t ∧ parse t.text = .ok t := by
  have spread : parse "lamp[ note = \"]\" ] " =
      .ok (.selector ⟨[⟨[⟨some "lamp", [⟨"note", some "]"⟩]⟩]⟩]⟩) := by decide +kernel
  have proper : quoting.Proper := by decide
  exact ⟨⟨proper, canonical_text_read_back.1 quoting proper⟩,
    _, spread, canonical_text_read_back.2.2 _ _ spread⟩

end HomeTree.Target
