import HomeTree.Client.Basic
import HomeTree.Endpoint.Binding
import HomeTree.Service.Connection

/-!
A daemon and the clients joined to it. A call runs to its end before the next one starts: the
request is served, what is queued for any client is delivered, and the caller looks for its reply.
A callback is known by the target of its subscription.
-/

namespace HomeTree

/-- A client and the other end of its connection. -/
structure Member where
  channel : Channel
  client : Client String
  /-- Whether the client has not left. -/
  present : Bool

structure Daemon where
  service : Service
  limit : Nat
  /-- In the order of joining; who was not welcome leaves a gap. -/
  members : List (Option Member)
  running : Bool

inductive DaemonError where
  | cannotBind (endpoint : Endpoint) (refusal : EndpointRefusal)
  /-- A request to a daemon that has ended. -/
  | ended
deriving DecidableEq, Repr

def DaemonError.message : DaemonError → String
  | .cannotBind endpoint refusal => "cannot bind " ++ endpoint.text ++ refusal.ending
  | .ended => "daemon channel closed"

/-- The place of a client in the order of joining. -/
abbrev MemberId : Type := Nat

namespace Daemon

/-- A daemon with an empty tree and no clients. -/
def start (s : ServerSettings) : Daemon :=
  ⟨.new, s.maxFrameBytes, [], true⟩

def member? (d : Daemon) (id : MemberId) : Option Member :=
  d.members[id]?.join

/-- Takes what is queued for one client and lets the client read it. -/
def deliverTo (s : Service) : Option Member → Service × Option Member
  | none => (s, none)
  | some m =>
    let (s, frames) := s.drain m.channel.outbox
    (s, some { m with client := m.client.receive (frames.flatMap Wire.bytes) })

def deliverAll (s : Service) : List (Option Member) → Service × List (Option Member)
  | [] => (s, [])
  | m :: rest =>
    let (s, m) := deliverTo s m
    let (s, rest) := deliverAll s rest
    (s, m :: rest)

def deliver (d : Daemon) : Daemon :=
  let (s, members) := deliverAll d.service d.members
  { d with service := s, members := members }

/-- Closes the connection of one member; the client stays to tell so. -/
def cut (d : Daemon) (id : MemberId) : Daemon :=
  match d.member? id with
  | none => d
  | some m =>
    { d with
      service := d.service.disconnect m.channel
      members := d.members.set id (some { m with client := m.client.hangUp }) }

/-- Closes all connections and ends. -/
def stop (d : Daemon) : Daemon :=
  let d := (List.range d.members.length).foldl cut d
  { d with running := false }

/-- The client goes, and its subscriptions go with it. -/
def leave (d : Daemon) (id : MemberId) : Daemon :=
  match d.member? id with
  | none => d
  | some m =>
    { d with
      service := d.service.disconnect m.channel
      members := d.members.set id (some { m with client := m.client.hangUp, present := false }) }

/-- A new client: it greets the daemon and reads the answer. One that is not welcome is gone at
once, but keeps its number. -/
def join (d : Daemon) (s : ClientSettings) : Daemon × Except ClientError MemberId :=
  let (service, channel) := d.service.connect
  let (service, _) := service.serveBlock d.limit channel (Client.greeting s).payload
  let (service, frames) := service.drain channel.outbox
  match Client.connect s (frames.flatMap Wire.bytes) false with
  | .ok c =>
    ({ d with service := service, members := d.members ++ [some ⟨channel, c, true⟩] },
      .ok d.members.length)
  | .error e =>
    ({ d with service := service.disconnect channel, members := d.members ++ [none] }, .error e)

/-- What follows when a request was served. -/
def proceed (d : Daemon) (id : MemberId) : NextStep → Daemon
  | .goOn => d
  | .shutdown => d.stop
  | .overflow => d.cut id

/-- Sends a started call to the daemon. -/
def serve (d : Daemon) (id : MemberId) (channel : Channel) (f : Frame) : Daemon :=
  let (service, next) := d.service.serveBlock d.limit channel f.payload
  proceed (deliver { d with service := service }) id next

/-- One blocking call. A daemon that serves a call answers it, so that the time to wait for the
answer never ends. -/
def call (d : Daemon) (id : MemberId) (r : Request) :
    Daemon × Except ClientError Reply :=
  match d.member? id with
  | none => (d, .error .stopped)
  | some m =>
    let (c, started) := m.client.start r (match r with
      | .subscribe target => target
      | _ => "")
    let d := { d with members := d.members.set id (some { m with client := c }) }
    match started with
    | .error e => (d, .error e)
    | .ok (call, f) =>
      let d := d.serve id m.channel f
      match d.member? id with
      | none => (d, .error (.lost r.operation))
      | some m => (d, m.client.wait call (m.client.timeout.getD ⟨0⟩))

/-- The pushes that the callbacks of a client were given, with the target of each. -/
def pushes (d : Daemon) (id : MemberId) : List (String × Push) :=
  match d.member? id with
  | none => []
  | some m => m.client.dispatcher.calls

end Daemon

end HomeTree
