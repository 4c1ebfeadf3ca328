import HomeTree.Command.Basic
import HomeTree.Daemon.Site
import HomeTree.Query.Builder

namespace HomeTree

/-- Why a command fails. -/
inductive CommandFailure where
  /-- The words are no invocation. -/
  | usage
  | settings (e : SettingsError)
  | badEndpoint (fault : EndpointFault)
  | daemon (e : DaemonError)
  | unreachable (endpoint : Endpoint) (refusal : EndpointRefusal)
  | unwelcome (endpoint : Endpoint) (e : ClientError)
  /-- A pair without a name. -/
  | missingName (pair : String)
  | stopFailed (e : ClientError)
  | callFailed (e : ClientError)

namespace CommandFailure

/-- Words that cannot be understood are told from work that fails. -/
def status : CommandFailure → Nat
  | .usage | .badEndpoint _ => 2
  | _ => 1

def unreachableMessage (endpoint : Endpoint) (rest : String) : String :=
  "cannot reach homedb at " ++ endpoint.text ++ ": " ++ rest

def message : CommandFailure → String
  | .usage => "usage: homedb [--config-dir DIR] [--endpoint ENDPOINT] [--verbose] COMMAND"
  | .settings e => e.message
  | .badEndpoint fault => fault.message
  | .daemon (.cannotBind endpoint refusal) =>
    (DaemonError.cannotBind endpoint refusal).message ++ refusal.ending
  | .daemon e => e.message
  | .unreachable endpoint refusal =>
    unreachableMessage endpoint (ClientError.connection
      ("cannot connect to " ++ endpoint.text ++ refusal.ending)).message
  | .unwelcome endpoint e => unreachableMessage endpoint e.message
  | .missingName pair => "missing name in '" ++ pair ++ "'"
  | .stopFailed e => "stop failed: " ++ e.message
  | .callFailed e => e.message

end CommandFailure

namespace ClientCommand

/-- A pair as a transform: `NAME=VALUE` writes, `NAME` reads. -/
def pair (place : Place) (text : String) : Except CommandFailure Transform :=
  let cs := text.toList
  let name := cs.takeWhile (· ≠ '=')
  if name.isEmpty then .error (.missingName text)
  else
    match cs.dropWhile (· ≠ '=') with
    | [] => .ok (.read place (String.ofList name))
    | _ :: value => .ok (.write place (String.ofList name) (String.ofList value))

/-- Flags first, then attributes, then style properties. -/
def queryOf (selector : String) (attrs css : List String) (parent children empty : Bool) :
    Except CommandFailure Query := do
  let attrs ← attrs.mapM (pair .attributes)
  let css ← css.mapM (pair .style)
  let flags := (if parent then [.parent] else []) ++ (if children then [.children] else [])
    ++ if empty then [.empty] else []
  return ⟨selector, flags ++ attrs ++ css⟩

def request : ClientCommand → Except CommandFailure Request
  | .stop => .ok .shutdown
  | .ls path => .ok (.listChildren path)
  | .mk parent name kind => .ok (.createChild parent name kind)
  | .rm parent name => .ok (.removeChild parent name)
  | .get path => .ok (.getNode path)
  | .query selector attrs css parent children empty => do
    let q ← queryOf selector attrs css parent children empty
    return .query q.toSpec
  | .watch target => .ok (.subscribe target)

def failure (e : ClientError) : ClientCommand → CommandFailure
  | .stop => .stopFailed e
  | _ => .callFailed e

/-- The path of a child as it was asked for. -/
def childText (parent name : String) : String :=
  if parent.toList.getLast? = some '/' then parent ++ name else parent ++ "/" ++ name

/-- What a command prints. -/
def shown (endpoint : Endpoint) (c : ClientCommand) (r : Reply) : Option Json :=
  match c, r with
  | .stop, _ => some (.object [("stopped", .string endpoint.text)])
  | .mk parent name _, _ => some (.object [("created", .string (childText parent name))])
  | .rm parent name, _ => some (.object [("removed", .string (childText parent name))])
  | _, .names names => some (.ofNames names.toList)
  | _, .node n => some n.toJson
  | _, .result result => some (queryResultJson result)
  | _, _ => none

def output (j : Option Json) : String :=
  match j with
  | some j => j.pretty ++ "\n"
  | none => ""

end ClientCommand

/-- The environment that commands run in. -/
structure Environment where
  configDir : Option String
  home : Option String

namespace Environment

/-- Where the settings of an invocation lie. -/
def directory (e : Environment) (i : Invocation) : String :=
  i.configDir.getD (Settings.directory e.configDir e.home)

/-- The settings of an invocation; an endpoint given with it is for both ends. -/
def settings (e : Environment) (files : Files) (i : Invocation) :
    Except CommandFailure Settings := do
  let loaded ← (Settings.load files (e.directory i)).mapError .settings
  match i.endpoint with
  | none => .ok loaded
  | some text =>
    match Endpoint.parse text with
    | .ok e =>
      .ok ⟨{ loaded.server with endpoint := some e }, { loaded.client with endpoint := some e }⟩
    | .error fault => .error (.badEndpoint fault)

end Environment

/-- How a command ends, or goes on. -/
inductive CommandOutcome where
  | printed (output : String)
  | watching (id : MemberId)
  | serving
  | failed (failure : CommandFailure)

namespace Site

def serve (s : Site) (settings : Settings) : Site × CommandOutcome :=
  match s.start settings.serverEndpoint settings.server with
  | (s, .ok _) => (s, .serving)
  | (s, .error e) => (s, .failed (.daemon e))

/-- The call of a client that has joined. -/
def ask (d : Daemon) (id : MemberId) (endpoint : Endpoint) (c : ClientCommand) :
    Daemon × CommandOutcome :=
  match c.request with
  | .error failure => (d.leave id, .failed failure)
  | .ok r =>
    let (d, answer) := d.call id r
    match c, answer with
    | _, .error e => (d.leave id, .failed (c.failure e))
    | .watch _, .ok _ => (d, .watching id)
    | _, .ok reply => (d.leave id, .printed (ClientCommand.output (c.shown endpoint reply)))

def runClient (s : Site) (settings : Settings) (c : ClientCommand) : Site × CommandOutcome :=
  let endpoint := settings.clientEndpoint
  match s.join endpoint settings.client with
  | (s, .error (.unreachable refusal)) => (s, .failed (.unreachable endpoint refusal))
  | (s, .error (.unwelcome e)) => (s, .failed (.unwelcome endpoint e))
  | (s, .ok id) =>
    s.step (.failed (.unreachable endpoint .system)) fun d => ask d id endpoint c

/-- Runs the invocation that words stand for. -/
def run (s : Site) (e : Environment) (words : List String) : Site × CommandOutcome :=
  match Invocation.parse? words with
  | none => (s, .failed .usage)
  | some i =>
    match e.settings s.files i with
    | .error failure => (s, .failed failure)
    | .ok settings =>
      match i.command with
      | .serve => s.serve settings
      | .client c => s.runClient settings c

/-- What a watching client was told. -/
def told (s : Site) (id : MemberId) : List Push :=
  (s.pushes id).map (·.2)

end Site

end HomeTree
