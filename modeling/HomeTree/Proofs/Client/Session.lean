import HomeTree.Proofs.Client.Routing
import Mathlib.Logic.Function.Basic
import Mathlib.Logic.Relation

/-!
A client, its callers and its peer, in any order of their steps. A caller takes a token, registers
and then writes its request, or takes the registration back if it cannot. The peer sends what it
likes, but under a token other than 0 only when the request with this token was written. The
receiver reads, takes the registrations and routes, and others may go on between any two of these.
Tokens are counted without a bound.
-/

namespace HomeTree

/-- What was read off the stream: a frame, or what is wrong with it. -/
abbrev Reading : Type := Except WireError Frame

/-- How far the call with a token has come. -/
inductive Stage where
  | free
  | taken
  | registered
  | written
  /-- Could not be written. -/
  | withdrawn
deriving DecidableEq

/-- Whether there is a waiter for the call, or was until it was answered. -/
def Stage.isOpen : Stage → Bool
  | .registered | .written => true
  | .free | .taken | .withdrawn => false

/-- Where the receiver is in its turn. -/
inductive Receiver where
  | idle
  /-- Has read, and not taken the registrations yet. -/
  | held (reading : Reading)
  /-- Has taken the registrations. -/
  | drained (reading : Reading)

namespace Receiver

def reading? : Receiver → Option Reading
  | .idle => none
  | .held reading => some reading
  | .drained reading => some reading

end Receiver

structure Session (κ : Type) where
  client : Client κ
  stage : Token → Stage
  /-- The tokens in the order they were taken. -/
  tokens : List Token
  /-- Calls whose handle was dropped, by their tokens. -/
  abandoned : List Token
  /-- All that the peer has sent, in order. -/
  sent : List Reading
  inFlight : List Reading
  receiver : Receiver
  /-- What the receiver is through with. -/
  seen : List Reading
  /-- What came to handles that were still there. -/
  received : List (Token × Message)

namespace Session

variable {κ : Type}

/-- A session behind the handshake. -/
def start (settings : ClientSettings) : Session κ :=
  ⟨.new settings, fun _ => .free, [], [], [], [], .idle, [], []⟩

def routing (s : Session κ) : Routing κ := s.client.routing

def withRouting (s : Session κ) (r : Routing κ) : Session κ :=
  { s with client := { s.client with routing := r } }

def withStage (s : Session κ) (token : Token) (stage : Stage) : Session κ :=
  { s with stage := Function.update s.stage token stage }

section

variable (s : Session κ) (r : Routing κ) (token : Token) (stage : Stage)

@[simp]
theorem routing_withRouting : (s.withRouting r).routing = r := rfl

@[simp]
theorem stage_withStage_same : (s.withStage token stage).stage token = stage :=
  Function.update_self ..

theorem stage_withStage_of_ne {other : Token} (ne : other ≠ token) :
    (s.withStage token stage).stage other = s.stage other :=
  Function.update_of_ne ne ..

end

inductive Step (s : Session κ) : Session κ → Prop where
  | take : Step s
    { s.withStage s.client.nextToken .taken with
      client := { s.client with nextToken := s.client.nextToken + 1 }
      tokens := s.tokens ++ [s.client.nextToken] }
  | register (token : Token) (followUp : Option (FollowUp κ)) (taken : s.stage token = .taken)
    (running : s.routing.ended = false) : Step s
    ((s.withStage token .registered).withRouting (s.routing.enqueue (.await token followUp)))
  | write (token : Token) (registered : s.stage token = .registered) : Step s
    (s.withStage token .written)
  | withdraw (token : Token) (registered : s.stage token = .registered) : Step s
    ((s.withStage token .withdrawn).withRouting (s.routing.enqueue (.forget token)))
  /-- The handle is dropped, or has waited long enough. -/
  | abandon (token : Token) (written : s.stage token = .written) : Step s
    { s with abandoned := token :: s.abandoned }
  | send (reading : Reading) (allowed : ∀ f, Routing.frameOf? reading = some f →
      f.token ≠ handshakeToken → s.stage f.token = .written) : Step s
    { s with sent := s.sent ++ [reading], inFlight := s.inFlight ++ [reading] }
  | read {reading : Reading} {rest : List Reading} (idle : s.receiver = .idle)
    (running : s.routing.ended = false) (first : s.inFlight = reading :: rest) : Step s
    { s with receiver := .held reading, inFlight := rest }
  | drain {reading : Reading} {f : Frame} (held : s.receiver = .held reading)
    (frame : Routing.frameOf? reading = some f) : Step s
    { s.withRouting s.routing.takeControl with receiver := .drained reading }
  /-- Without a frame there is nothing to route, and a fatal error ends the session. -/
  | skip {reading : Reading} (held : s.receiver = .held reading)
    (none : Routing.frameOf? reading = none) : Step s
    { s.withRouting (s.routing.receive reading) with
      receiver := .idle, seen := s.seen ++ [reading] }
  | route {reading : Reading} {f : Frame} (drained : s.receiver = .drained reading)
    (frame : Routing.frameOf? reading = some f) : Step s
    { s.withRouting (s.routing.route f) with
      receiver := .idle
      seen := s.seen ++ [reading]
      received := s.received ++
        (s.routing.delivered f).filter fun p => !s.abandoned.contains p.1 }
  | dispatch : Step s { s with client := s.client.dispatch }

def Reaches : Session κ → Session κ → Prop :=
  Relation.ReflTransGen Step

/-- A call that nobody interferes with is started as `start` does. -/
theorem reaches_start (s : Session κ) (r : Request) (callback : κ)
    (running : s.routing.ended = false) :
    ∃ t, s.Reaches t ∧ t.client = (s.client.start r callback).1 := by
  have live : s.client.routing.ended = false := running
  refine ⟨_, .tail (.single .take) (.register _ (r.followUp callback)
    (Function.update_self ..) live), ?_⟩
  simp [withRouting, withStage, routing, Client.start, live]

/-- A turn of the receiver that nobody interferes with is one of `receive`. -/
theorem reaches_receive (s : Session κ) {reading : Reading} (held : s.receiver = .held reading) :
    ∃ t, s.Reaches t ∧ t.routing = s.routing.receive reading := by
  cases h : Routing.frameOf? reading with
  | none => exact ⟨_, .single (.skip held h), rfl⟩
  | some f =>
    rw [Routing.receive_of_frame h]
    exact ⟨_, .tail (.single (.drain held h)) (.route rfl h), rfl⟩

/-- The messages of the frames with a token. -/
def carrying (token : Token) (readings : List Reading) : List Message :=
  ((readings.filterMap Routing.frameOf?).filter fun f => f.token == token).map Frame.message

theorem carrying_append (token : Token) (readings more : List Reading) :
    carrying token (readings ++ more) = carrying token readings ++ carrying token more := by
  rw [carrying, List.filterMap_append, List.filter_append, List.map_append]
  rfl

theorem carrying_of_frame {reading : Reading} {f : Frame} (h : Routing.frameOf? reading = some f)
    (token : Token) : carrying token [reading] = if token = f.token then [f.message] else [] := by
  by_cases eq : f.token = token
  · simp [carrying, h, eq]
  · simp [carrying, h, eq, Ne.symm eq]

theorem carrying_of_no_frame {reading : Reading} (h : Routing.frameOf? reading = none)
    (token : Token) : carrying token [reading] = [] := by
  simp [carrying, h]

end Session

end HomeTree
