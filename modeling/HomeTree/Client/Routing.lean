import HomeTree.Client.Error

/-!
Routing replies to their waiters. Callers leave their registrations in a queue before they write a
request; the receiver reads a frame, takes all registrations, and then routes the frame: to the
waiter with its token, or, if it is a push, to the dispatcher. A callback is whatever its owner
knows it by.
-/

namespace HomeTree

/-- What follows when a reply arrives. -/
inductive FollowUp (κ : Type) where
  /-- A subscription was made: its pushes go to the callback. -/
  | install (callback : κ)
  /-- A subscription has ended. -/
  | remove (id : Nat)

/-- A registration with the receiver. -/
inductive Control (κ : Type) where
  | await (token : Token) (followUp : Option (FollowUp κ))
  /-- The request was never written. -/
  | forget (token : Token)

/-- Work for the dispatcher. -/
inductive Work (κ : Type) where
  | install (id : Nat) (callback : κ)
  | remove (id : Nat)
  | push (p : Push)

structure Routing (κ : Type) where
  /-- Registrations that the receiver has not taken yet. -/
  control : List (Control κ)
  pending : List (Token × Option (FollowUp κ))
  /-- The replies handed to their waiters. -/
  mail : List (Token × Message)
  work : List (Work κ)
  ended : Bool

namespace Routing

variable {κ : Type}

def empty : Routing κ := ⟨[], [], [], [], false⟩

def enqueue (r : Routing κ) (c : Control κ) : Routing κ :=
  { r with control := r.control ++ [c] }

/-- One registration among the waiters. -/
def register (pending : List (Token × Option (FollowUp κ))) :
    Control κ → List (Token × Option (FollowUp κ))
  | .await token followUp => (token, followUp) :: pending.filter fun p => p.1 != token
  | .forget token => pending.filter fun p => p.1 != token

/-- Takes all registrations. -/
def takeControl (r : Routing κ) : Routing κ :=
  { r with control := [], pending := r.control.foldl register r.pending }

/-- A follow-up becomes work only if the reply is the one it waits for. -/
def workOf : Option (FollowUp κ) → Message → List (Work κ)
  | some (.install callback), .subscribed id _ => [.install id callback]
  | some (.remove id), .ok => [.remove id]
  | _, _ => []

/-- A frame that nobody waits for: a push is dispatched under any token, all else is dropped. -/
def unawaited : Message → List (Work κ)
  | .push p => [.push p]
  | _ => []

def route (r : Routing κ) (f : Frame) : Routing κ :=
  let waiter := if f.token = handshakeToken then none else r.pending.lookup f.token
  match waiter with
  | some followUp =>
    { r with
      pending := r.pending.filter fun p => p.1 != f.token
      mail := r.mail ++ [(f.token, f.message)]
      work := r.work ++ workOf followUp f.message }
  | none => { r with work := r.work ++ unawaited f.message }

/-- The frame that a reading stands for: a block that could not be read answers its waiter with an
error, if its token is known and not 0. -/
def frameOf? : Except WireError Frame → Option Frame
  | .ok f => some f
  | .error e =>
    match e.token? with
    | some token => if token = handshakeToken then none else some (e.answer token)
    | none => none

/-- One turn of the receiver; a fatal error ends it, and all who still wait are lost. -/
def receive (r : Routing κ) (reading : Except WireError Frame) : Routing κ :=
  match reading with
  | .error .closed => { r with ended := true }
  | .error (.io _) => { r with ended := true }
  | reading =>
    match frameOf? reading with
    | some f => r.takeControl.route f
    | none => r

/-- The reply that a waiter was given. -/
def reply? (r : Routing κ) (token : Token) : Option Message :=
  r.mail.lookup token

end Routing

end HomeTree
