import HomeTree.Error

namespace HomeTree

variable {ε σ α β : Type}

/-- What an attempt comes to that leaves the state as it was where it fails. -/
def allOrNothing (s : σ) : Except ε (σ × α) → EStateM.Result ε σ α
  | .ok (s', a) => .ok a s'
  | .error e => .error e s

theorem allOrNothing_eq_ok {s s' : σ} {a : α} {r : Except ε (σ × α)} :
    allOrNothing s r = .ok a s' ↔ r = .ok (s', a) := by
  cases r with
  | ok r =>
    simp only [allOrNothing, EStateM.Result.ok.injEq, Except.ok.injEq, Prod.ext_iff, and_comm]
  | error e => simp [allOrNothing]

theorem allOrNothing_eq_error {s s' : σ} {e : ε} {r : Except ε (σ × α)} :
    allOrNothing s r = .error e s' ↔ r = .error e ∧ s' = s := by
  cases r with
  | ok r => simp [allOrNothing]
  | error e => simp [allOrNothing, eq_comm]

section

variable {r : Except TreeError α} {f : α → EStateM TreeError σ β} {s s' : σ} {b : β}

theorem lift_bind_ok {a : α} (h : r = .ok a) :
    ((liftM r : EStateM TreeError σ α) >>= f) s = f a s := by
  rw [h]
  rfl

theorem lift_bind_error {e : TreeError} (h : r = .error e) :
    ((liftM r : EStateM TreeError σ α) >>= f) s = .error e s := by
  rw [h]
  rfl

theorem exists_of_lift_bind_eq_ok (h : ((liftM r : EStateM TreeError σ α) >>= f) s = .ok b s') :
    ∃ a, r = .ok a ∧ f a s = .ok b s' := by
  cases r with
  | ok a => exact ⟨a, rfl, h⟩
  | error e => cases h

/-- What is looked at first is looked at first in what the attempt comes to. -/
theorem lift_bind_eq_allOrNothing {g : α → Except TreeError (σ × β)}
    (h : ∀ a, r = .ok a → f a s = allOrNothing s (g a)) :
    ((liftM r : EStateM TreeError σ α) >>= f) s = allOrNothing s (r >>= g) := by
  cases r with
  | ok a => exact h a rfl
  | error e => rfl

end

/-- Wherever an attempt fails, a relation holds of the state before, the error and the state that
is left. -/
def Fails (R : σ → ε → σ → Prop) (x : EStateM ε σ α) : Prop :=
  ∀ s e s', x s = .error e s' → R s e s'

/-- Where the attempt fails, it has not changed the state. -/
abbrev FailsEarly (x : EStateM ε σ α) : Prop :=
  Fails (fun s _ s' => s' = s) x

namespace Fails

variable {R : σ → ε → σ → Prop}

theorem of_ok {x : EStateM ε σ α} (h : ∀ s, ∃ a s', x s = .ok a s') : Fails R x := by
  intro s e s' failed
  obtain ⟨a, t, made⟩ := h s
  rw [made] at failed
  cases failed

theorem throw {e : ε} (h : ∀ s, R s e s) : Fails R (throw e : EStateM ε σ α) := by
  intro s e' s' failed
  cases failed
  exact h s

theorem get_bind {f : σ → EStateM ε σ α} (h : ∀ s, Fails R (f s)) :
    Fails R ((get : EStateM ε σ σ) >>= f) :=
  fun s e s' failed => h s s e s' failed

theorem lift_bind {R : σ → TreeError → σ → Prop} {r : Except TreeError α}
    {f : α → EStateM TreeError σ β} (first : ∀ e, r = .error e → ∀ s, R s e s)
    (h : ∀ a, Fails R (f a)) : Fails R ((liftM r : EStateM TreeError σ α) >>= f) := by
  intro s e s' failed
  cases r with
  | ok a => exact h a s e s' failed
  | error e =>
    cases failed
    exact first e rfl s

theorem ite {p : Prop} [Decidable p] {x y : EStateM ε σ α} (yes : Fails R x)
    (no : Fails R y) : Fails R (if p then x else y) := by
  split
  next => exact yes
  next => exact no

end Fails

end HomeTree
