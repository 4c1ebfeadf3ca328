import HomeTree.Subscription.Registry

/-!
The service: a tree, the subscriptions to its changes and the outboxes of its connections. A
request is handled in one step. Its reply is queued first; then, still in the same step, the
pushes for what it has changed.
-/

namespace HomeTree

structure Service where
  tree : Tree
  registry : Registry
  /-- The last id given to a connection; there are fewer than 2 ^ 64 of them. -/
  lastConnection : ConnectionId
  outboxes : Outboxes

/-- What the connection should do after a request. -/
inductive NextStep where
  | goOn
  /-- A shutdown was acknowledged. -/
  | shutdown
  /-- The reply did not fit in the outbox. -/
  | overflow
deriving DecidableEq, Repr

namespace Service

def ofTree (t : Tree) : Service :=
  ⟨t, .empty, 0, .empty⟩

def new : Service := ofTree .new

/-- An id for a new connection. -/
def register (s : Service) : Service × ConnectionId :=
  ({ s with lastConnection := s.lastConnection + 1 }, s.lastConnection + 1)

/-- Forgets what a closed connection owned. -/
def release (s : Service) (connection : ConnectionId) : Service :=
  { s with registry := (s.registry.release connection).1 }

def openOutbox (s : Service) (capacity : Nat) : Service × OutboxId :=
  let (os, id) := s.outboxes.add capacity
  ({ s with outboxes := os }, id)

def drain (s : Service) (outbox : OutboxId) : Service × List Frame :=
  let (os, frames) := s.outboxes.drain outbox
  ({ s with outboxes := os }, frames)

def closeOutbox (s : Service) (outbox : OutboxId) : Service :=
  { s with outboxes := s.outboxes.close outbox }

/-- Pushes for changes that were made. -/
def publish (s : Service) (changes : List Change) : Service :=
  let (registry, os, _) := s.registry.notify changes s.outboxes
  { s with registry := registry, outboxes := os }

/-- Queues a frame; tells whether the outbox was full. A peer that is gone misses nothing. -/
def send (s : Service) (outbox : OutboxId) (f : Frame) : Service × Bool :=
  let (os, d) := s.outboxes.send outbox f
  ({ s with outboxes := os }, d == .full)

/-- What a request comes to: the state it leaves, its reply and the changes to be pushed after
that. -/
structure Answer where
  service : Service
  reply : Message
  changes : List Change

/-- An answer that nobody else is told of. -/
def replying (s : Service) (reply : Message) : Answer :=
  ⟨s, reply, []⟩

def failed (s : Service) (operation : String) (e : TreeError) : Answer :=
  s.replying (.error operation e)

/-- The answer to a request that reads. -/
def reading (s : Service) (operation : String) (r : Except TreeError Message) : Answer :=
  match r with
  | .ok reply => s.replying reply
  | .error e => s.failed operation e

/-- The answer to a request that makes one change, with the tree that is left when it fails, too. -/
def changing (s : Service) (operation : String) (r : EStateM.Result TreeError Tree Change) :
    Answer :=
  match r with
  | .ok change tree => ⟨{ s with tree := tree }, .ok, [change]⟩
  | .error e tree => { s with tree := tree }.failed operation e

/-- The answer to a request about the subscriptions. -/
def registering {α : Type} (s : Service) (operation : String)
    (r : EStateM.Result TreeError Registry α) (reply : α → Message) : Answer :=
  match r with
  | .ok a registry => { s with registry := registry }.replying (reply a)
  | .error e registry => { s with registry := registry }.failed operation e

/-- A group that can change the tree runs on it; any other one only reads it. -/
def answerQuery (s : Service) (group : List QuerySpec) : Answer :=
  let plan := Plan.compile group
  if plan.isMutating then
    let o := plan.execute s.tree
    ⟨{ s with tree := o.tree }, .queryResult o.results, o.changes⟩
  else s.replying (.queryResult (plan.executeRead s.tree))

def answer (s : Service) (connection : ConnectionId) (outbox : OutboxId) (m : Message) : Answer :=
  match m with
  | .ping text => s.replying (.pong text)
  | .subscribe target =>
    s.registering m.name (s.registry.subscribe connection target outbox) (.subscribed · target)
  | .unsubscribe id =>
    s.registering m.name (s.registry.unsubscribe connection id) fun _ => .ok
  | .query group => s.answerQuery group
  | .createChild parent name kind =>
    s.changing m.name (s.tree.createChild parent name (kind.getD defaultKind))
  | .removeChild parent name => s.changing m.name (s.tree.removeChild parent name)
  | .listChildren path => s.reading m.name ((s.tree.listChildren path).map .children)
  | .getNode path => s.reading m.name ((s.tree.getNode path).map .node)
  | .shutdown => s.replying .ok
  | _ => s.failed m.name (.protocol ("'" ++ m.name ++ "' is not a request"))

/-- Handles one frame: the reply goes out under its token, then the pushes. -/
def handle (s : Service) (connection : ConnectionId) (outbox : OutboxId) (f : Frame) :
    Service × NextStep :=
  let a := s.answer connection outbox f.message
  let (s, full) := a.service.send outbox ⟨f.token, a.reply⟩
  let s := s.publish a.changes
  (s, if full then .overflow else if f.message.isShutdown then .shutdown else .goOn)

end Service

end HomeTree
