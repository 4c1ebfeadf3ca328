import HomeTree.Message.Basic

namespace HomeTree

/-- Frames that wait for one peer. One more is queued or refused at once. -/
structure Outbox where
  capacity : Nat
  isOpen : Bool
  queue : List Frame

inductive Delivery where
  | queued
  /-- Refused by a full outbox. -/
  | full
  /-- Refused because the peer is gone. -/
  | gone
deriving DecidableEq, Repr

namespace Outbox

def ofCapacity (capacity : Nat) : Outbox :=
  ⟨capacity, true, []⟩

def send (o : Outbox) (f : Frame) : Outbox × Delivery :=
  if o.isOpen = false then (o, .gone)
  else if o.capacity ≤ o.queue.length then (o, .full)
  else ({ o with queue := o.queue ++ [f] }, .queued)

/-- Takes everything that is queued. -/
def drain (o : Outbox) : Outbox × List Frame :=
  ({ o with queue := [] }, o.queue)

/-- The peer goes away, and what is queued is lost. -/
def close (o : Outbox) : Outbox :=
  { o with isOpen := false, queue := [] }

end Outbox

abbrev OutboxId : Type := Nat

/-- The outboxes that were ever opened, by their numbers. -/
structure Outboxes where
  boxes : List Outbox

namespace Outboxes

def empty : Outboxes := ⟨[]⟩

def get? (os : Outboxes) (id : OutboxId) : Option Outbox :=
  os.boxes[id]?

def set (os : Outboxes) (id : OutboxId) (o : Outbox) : Outboxes :=
  ⟨os.boxes.set id o⟩

def add (os : Outboxes) (capacity : Nat) : Outboxes × OutboxId :=
  (⟨os.boxes ++ [.ofCapacity capacity]⟩, os.boxes.length)

/-- An outbox that was never opened has no peer. -/
def send (os : Outboxes) (id : OutboxId) (f : Frame) : Outboxes × Delivery :=
  match os.get? id with
  | none => (os, .gone)
  | some o =>
    let (o, d) := o.send f
    (os.set id o, d)

def drain (os : Outboxes) (id : OutboxId) : Outboxes × List Frame :=
  match os.get? id with
  | none => (os, [])
  | some o =>
    let (o, frames) := o.drain
    (os.set id o, frames)

def close (os : Outboxes) (id : OutboxId) : Outboxes :=
  match os.get? id with
  | none => os
  | some o => os.set id o.close

end Outboxes

end HomeTree
