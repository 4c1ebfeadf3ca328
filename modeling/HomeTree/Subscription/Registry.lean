import HomeTree.Subscription.Outbox
import HomeTree.Subscription.Target

namespace HomeTree

abbrev ConnectionId : Type := Nat

structure Subscription where
  id : Nat
  connection : ConnectionId
  /-- The target as the subscriber wrote it. -/
  text : String
  target : Target
  outbox : OutboxId

/-- Subscriptions in the order of their ids, and the last id given out. Ids are told apart as long
as there are fewer than 2 ^ 64 of them. -/
structure Registry where
  lastId : Nat
  subscriptions : List Subscription

namespace Registry

def empty : Registry := ⟨0, []⟩

def size (r : Registry) : Nat := r.subscriptions.length

def isEmpty (r : Registry) : Bool := r.subscriptions.isEmpty

def subscribe (connection : ConnectionId) (text : String) (outbox : OutboxId) :
    EStateM TreeError Registry Nat := do
  let target ← Target.parse text
  modify fun r => { r with lastId := r.lastId + 1 }
  let id := (← get).lastId
  modify fun r =>
    { r with subscriptions := r.subscriptions ++ [⟨id, connection, text, target, outbox⟩] }
  return id

/-- The id of another connection's subscription is as good as unknown. -/
def unsubscribe (connection : ConnectionId) (id : Nat) : EStateM TreeError Registry Unit := do
  if (← get).subscriptions.any fun s => s.id == id && s.connection == connection then
    modify fun r => { r with subscriptions := r.subscriptions.filter fun s => s.id != id }
  else throw (.noSuchSubscription id)

/-- Drops all subscriptions of a connection and counts them. -/
def release (r : Registry) (connection : ConnectionId) : Registry × Nat :=
  let kept := r.subscriptions.filter fun s => s.connection != connection
  ({ r with subscriptions := kept }, r.subscriptions.length - kept.length)

end Registry

namespace Subscription

def matching (s : Subscription) (changes : List Change) : List Change :=
  changes.filter s.target.accepts

/-- The push for changes that match: each path once, where it comes first. -/
def push (s : Subscription) (changes : List Change) : Push :=
  ⟨s.id, s.text, (changes.map fun c => c.path.text).eraseDups, changes.map Change.record⟩

/-- Tells one subscription of changes; without a matching one nothing is sent. -/
def tell (s : Subscription) (changes : List Change) (os : Outboxes) :
    Outboxes × Option Delivery :=
  match s.matching changes with
  | [] => (os, none)
  | first :: rest =>
    let (os, d) := os.send s.outbox (.ofPush (s.push (first :: rest)))
    (os, some d)

end Subscription

namespace Registry

/-- Tells the subscriptions one after the other; returns those that stay and how many pushes
were queued. -/
def tellAll (changes : List Change) :
    List Subscription → Outboxes → List Subscription × Outboxes × Nat
  | [], os => ([], os, 0)
  | s :: rest, os =>
    let (os, d) := s.tell changes os
    let (kept, os, sent) := tellAll changes rest os
    match d with
    | none => (s :: kept, os, sent)
    | some .queued => (s :: kept, os, sent + 1)
    | some _ => (kept, os, sent)

def notify (r : Registry) (changes : List Change) (os : Outboxes) :
    Registry × Outboxes × Nat :=
  let (kept, os, sent) := tellAll changes r.subscriptions os
  ({ r with subscriptions := kept }, os, sent)

end Registry

end HomeTree
