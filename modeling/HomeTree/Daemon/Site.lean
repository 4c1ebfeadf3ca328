import HomeTree.Daemon.Basic

namespace HomeTree

structure Site where
  files : Files
  /-- The daemon that was started last, and where. -/
  daemon : Option (Daemon × Endpoint)

/-- Why a client has no connection. -/
inductive JoinError where
  | unreachable (refusal : EndpointRefusal)
  | unwelcome (e : ClientError)
deriving DecidableEq

namespace Site

def ofFiles (files : Files) : Site := ⟨files, none⟩

/-- Starts a daemon; returns the endpoint that was bound. -/
def start (s : Site) (endpoint : Endpoint) (settings : ServerSettings) :
    Site × Except DaemonError Endpoint :=
  match endpoint.bind s.files with
  | (files, .ok bound) => (⟨files, some (.start settings, bound)⟩, .ok bound)
  | (files, .error refusal) =>
    ({ s with files := files }, .error (.cannotBind endpoint refusal))

def isRunning (s : Site) : Bool :=
  s.daemon.any fun (d, _) => d.running

/-- The daemon behind what an endpoint leads to. -/
def find (s : Site) (endpoint : Endpoint) : Except EndpointRefusal Daemon := do
  endpoint.connect s.files
  match s.daemon with
  | some (d, _) => if d.running then .ok d else .error .system
  | none => .error .system

/-- What the daemon is after a step, and the files with it. -/
def settle (s : Site) (d : Daemon) : Site :=
  match s.daemon with
  | none => s
  | some (_, bound) =>
    ⟨if d.running then s.files else bound.released s.files, some (d, bound)⟩

/-- A new client at an endpoint. -/
def join (s : Site) (endpoint : Endpoint) (settings : ClientSettings) :
    Site × Except JoinError MemberId :=
  match s.find endpoint with
  | .error refusal => (s, .error (.unreachable refusal))
  | .ok d =>
    let (d, joined) := d.join settings
    (s.settle d, joined.mapError .unwelcome)

/-- A step of the daemon, if there is one. -/
def step {α : Type} (s : Site) (missing : α) (f : Daemon → Daemon × α) : Site × α :=
  match s.daemon with
  | none => (s, missing)
  | some (d, _) =>
    let (d, a) := f d
    (s.settle d, a)

/-- The pushes that the callbacks of a client were given, with the target of each. -/
def pushes (s : Site) (id : MemberId) : List (String × Push) :=
  match s.daemon with
  | some (d, _) => d.pushes id
  | none => []

end Site

end HomeTree
