import HomeTree.Service.Basic
import HomeTree.Wire.Framing

namespace HomeTree

/-- Frames that may wait for one peer. -/
def outboxCapacity : Nat := 1024

/-- The two ends that a connection has in the service. -/
structure Channel where
  connection : ConnectionId
  outbox : OutboxId
deriving DecidableEq, Repr

namespace Service

def connect (s : Service) : Service × Channel :=
  let (s, connection) := s.register
  let (s, outbox) := s.openOutbox outboxCapacity
  (s, ⟨connection, outbox⟩)

/-- The subscriptions of a connection go with it. -/
def disconnect (s : Service) (ch : Channel) : Service :=
  (s.release ch.connection).closeOutbox ch.outbox

def serveBlock (limit : Nat) (ch : Channel) (s : Service) (payload : List UInt8) :
    Service × NextStep :=
  match Wire.outcome limit payload with
  | .ok f => s.handle ch.connection ch.outbox f
  | .error e =>
    match e.token? with
    | none => (s, .goOn)
    | some token =>
      let (s, full) := s.send ch.outbox (e.answer token)
      (s, if full then .overflow else .goOn)

/-- Serves blocks until the last, a shutdown or an overflow; returns what was written. -/
def serveBlocks (limit : Nat) (ch : Channel) (s : Service) : List (List UInt8) →
    Service × List Frame × NextStep
  | [] => (s, [], .goOn)
  | payload :: rest =>
    let (s, next) := s.serveBlock limit ch payload
    let (s, written) := s.drain ch.outbox
    match next with
    | .goOn =>
      let (s, more, next) := serveBlocks limit ch s rest
      (s, written ++ more, next)
    | next => (s, written, next)

/-- Serves a whole stream of bytes on a new connection, which is closed behind it. -/
def serve (limit : Nat) (s : Service) (bytes : List UInt8) : Service × List Frame :=
  let (s, ch) := s.connect
  let (s, written, _) := s.serveBlocks limit ch (Wire.blocks bytes).1
  (s.disconnect ch, written)

end Service

end HomeTree
