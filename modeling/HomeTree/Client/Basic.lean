import HomeTree.Client.Dispatch
import HomeTree.Client.Request
import HomeTree.Settings.Basic

namespace HomeTree

structure Client (κ : Type) where
  limit : Nat
  timeout : Option Duration
  nextToken : Token
  routing : Routing κ
  dispatcher : Dispatcher κ
  /-- The bytes of a block that is not there whole. -/
  unread : List UInt8

/-- A call that was written. -/
structure Call where
  token : Token
  request : Request

namespace Client

variable {κ : Type}

def new (s : ClientSettings) : Client κ :=
  ⟨s.maxFrameBytes, s.requestTimeout?, 1, .empty, .empty, []⟩

/-- Hands what the receiver has put aside to the dispatcher. -/
def dispatch (c : Client κ) : Client κ :=
  { c with
    routing := { c.routing with work := [] }
    dispatcher := c.dispatcher.run c.routing.work }

/-- Reads the blocks that are there whole. -/
def receive (c : Client κ) (bytes : List UInt8) : Client κ :=
  if c.routing.ended then c
  else
    let (payloads, left) := Wire.blocks (c.unread ++ bytes)
    let readings := payloads.map (Wire.outcome c.limit)
    dispatch { c with routing := readings.foldl Routing.receive c.routing, unread := left }

/-- The peer hangs up, and all who still wait are lost. -/
def hangUp (c : Client κ) : Client κ :=
  { c with routing := c.routing.receive (.error (Wire.ending c.unread)) }

/-- Starts a call; returns it with the frame to write. A call takes its token also if nobody is
left to read the reply. -/
def start (c : Client κ) (r : Request) (callback : κ) :
    Client κ × Except ClientError (Call × Frame) :=
  let token := c.nextToken
  let c := { c with nextToken := token + 1 }
  if c.routing.ended then (c, .error .stopped)
  else
    ({ c with routing := c.routing.enqueue (.await token (r.followUp callback)) },
      .ok (⟨token, r⟩, ⟨token, r.message⟩))

/-- Takes back the registration of a call that could not be written. -/
def forget (c : Client κ) (call : Call) : Client κ :=
  { c with routing := c.routing.enqueue (.forget call.token) }

/-- How a call has ended, if it has. -/
def answer? (c : Client κ) (call : Call) : Option (Except ClientError Reply) :=
  match c.routing.reply? call.token with
  | some m => some (call.request.reply m)
  | none => if c.routing.ended then some (.error (.lost call.request.operation)) else none

/-- Waits a bounded time for a call's end. -/
def wait (c : Client κ) (call : Call) (bound : Duration) : Except ClientError Reply :=
  (c.answer? call).getD (.error (.timeout call.token call.request.operation bound))

/-- The frame that a client opens a connection with. -/
def greeting (s : ClientSettings) : Frame :=
  ⟨handshakeToken, .ping s.handshakeChallenge⟩

def handshakeError (reason : String) : ClientError :=
  .connection ("handshake failed: " ++ reason)

/-- The answer to the greeting has to be its echo. -/
def checkEcho (s : ClientSettings) (f : Frame) : Except ClientError Unit :=
  match f with
  | ⟨token, .pong text⟩ =>
    if token = handshakeToken ∧ text = s.handshakeChallenge then .ok ()
    else .error (handshakeError ("unexpected pong on token " ++ toString token))
  | ⟨token, m⟩ =>
    .error (handshakeError ("unexpected " ++ m.name ++ " on token " ++ toString token))

/-- A client that has greeted its peer and was sent bytes; `closed` tells that the peer has hung
up behind them. What follows the echo is for the receiver. -/
def connect (s : ClientSettings) (bytes : List UInt8) (closed : Bool) :
    Except ClientError (Client κ) :=
  match Wire.block? bytes with
  | none =>
    let e := if closed then Wire.ending bytes else .io "the peer does not answer"
    .error (handshakeError e.message)
  | some (payload, rest) =>
    match Wire.outcome s.maxFrameBytes payload with
    | .error e => .error (handshakeError e.message)
    | .ok f => do
      checkEcho s f
      let c := (new s).receive rest
      return if closed then c.hangUp else c

end Client

end HomeTree
