import HomeTree.Client.Routing

namespace HomeTree

/-- The callbacks by subscription, and the calls made so far. -/
structure Dispatcher (κ : Type) where
  callbacks : List (Nat × κ)
  calls : List (κ × Push)

namespace Dispatcher

variable {κ : Type}

def empty : Dispatcher κ := ⟨[], []⟩

def step (d : Dispatcher κ) : Work κ → Dispatcher κ
  | .install id callback =>
    { d with callbacks := (id, callback) :: d.callbacks.filter fun c => c.1 != id }
  | .remove id => { d with callbacks := d.callbacks.filter fun c => c.1 != id }
  | .push p =>
    match d.callbacks.lookup p.subscription with
    | some callback => { d with calls := d.calls ++ [(callback, p)] }
    | none => d

def run (d : Dispatcher κ) (work : List (Work κ)) : Dispatcher κ :=
  work.foldl step d

end Dispatcher

end HomeTree
