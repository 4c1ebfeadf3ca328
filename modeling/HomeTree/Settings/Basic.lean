import HomeTree.Client.Error
import HomeTree.Endpoint
import HomeTree.Files.Basic
import HomeTree.Text.Blank
import HomeTree.Yaml.Document

namespace HomeTree

structure ServerSettings where
  endpoint : Option Endpoint
  maxFrameBytes : Nat
  acceptPollMillis : Nat
deriving DecidableEq, Repr

structure ClientSettings where
  endpoint : Option Endpoint
  maxFrameBytes : Nat
  /-- 0 stands for no bound. -/
  requestTimeoutMillis : Nat
  handshakeChallenge : String
deriving DecidableEq, Repr

structure Settings where
  server : ServerSettings
  client : ClientSettings
deriving DecidableEq, Repr

/-- Why settings could not be loaded. -/
inductive SettingsError where
  /-- Something else than a file lies in its place. -/
  | unreadable (path : String)
  | noText (path : String)
  | invalid (path : String)
deriving DecidableEq, Repr

namespace SettingsError

def path : SettingsError → String
  | .unreadable path => path
  | .noText path => path
  | .invalid path => path

/-- The beginning of the message, which names the file. -/
def heading : SettingsError → String
  | .unreadable path => "cannot read '" ++ path ++ "'"
  | .noText path => "cannot read '" ++ path ++ "'"
  | .invalid path => "invalid config '" ++ path ++ "'"

def message (e : SettingsError) : String :=
  match e with
  | .noText _ => e.heading ++ ": stream did not contain valid UTF-8"
  | e => e.heading

end SettingsError

namespace ServerSettings

def default : ServerSettings :=
  ⟨none, Wire.defaultLimit, 50⟩

end ServerSettings

namespace ClientSettings

def default : ClientSettings :=
  ⟨none, Wire.defaultLimit, 10000, "flimfniffle"⟩

def requestTimeout? (s : ClientSettings) : Option Duration :=
  if s.requestTimeoutMillis = 0 then none else some (.ofMillis s.requestTimeoutMillis)

end ClientSettings

namespace Settings

def fileName : String := "homedb.yaml"

def socketName : String := "homedb.sock"

def default : Settings := ⟨.default, .default⟩

/-- The directory that holds the settings, from the environment. -/
def directory (override home : Option String) : String :=
  match override with
  | some dir => dir
  | none => inDirectory (inDirectory (home.getD "/tmp") ".config") "homedb"

def serverEndpoint (s : Settings) : Endpoint :=
  s.server.endpoint.getD (.unix socketName)

def clientEndpoint (s : Settings) : Endpoint :=
  s.client.endpoint.getD s.serverEndpoint

/-- The fields of a section under names that are known; of those none may be repeated. -/
def known? (d : Yaml.Document) (names : List String) (y : Yaml) :
    Option (List (String × Yaml)) := do
  let fields := (← d.section? y).filter fun f => names.contains f.1
  if (fields.map (·.1)).Nodup then some fields else none

def field? {α : Type} (fields : List (String × Yaml)) (name : String) (missing : α)
    (value? : Yaml → Option α) : Option α :=
  match fields.lookup name with
  | none => some missing
  | some y => value? y

/-- An endpoint that is left out is unset. -/
def endpoint? (d : Yaml.Document) (y : Yaml) : Option (Option Endpoint) := do
  match ← d.optionalText? y with
  | none => some none
  | some text =>
    match Endpoint.parse text with
    | .ok e => some (some e)
    | .error _ => none

def server? (d : Yaml.Document) (y : Yaml) : Option ServerSettings := do
  let s := ServerSettings.default
  let fields ← known? d ["endpoint", "max_frame_bytes", "accept_poll_ms"] y
  let endpoint ← field? fields "endpoint" s.endpoint (endpoint? d)
  let maxFrameBytes ← field? fields "max_frame_bytes" s.maxFrameBytes d.word?
  let acceptPollMillis ← field? fields "accept_poll_ms" s.acceptPollMillis d.word?
  return ⟨endpoint, maxFrameBytes, acceptPollMillis⟩

def client? (d : Yaml.Document) (y : Yaml) : Option ClientSettings := do
  let s := ClientSettings.default
  let fields ←
    known? d ["endpoint", "max_frame_bytes", "request_timeout_ms", "handshake_challenge"] y
  let endpoint ← field? fields "endpoint" s.endpoint (endpoint? d)
  let maxFrameBytes ← field? fields "max_frame_bytes" s.maxFrameBytes d.word?
  let requestTimeoutMillis ← field? fields "request_timeout_ms" s.requestTimeoutMillis d.word?
  let handshakeChallenge ← field? fields "handshake_challenge" s.handshakeChallenge d.text?
  return ⟨endpoint, maxFrameBytes, requestTimeoutMillis, handshakeChallenge⟩

def ofDocument? (d : Yaml.Document) : Option Settings := do
  let s := Settings.default
  let fields ← known? d ["server", "client"] d.root
  let server ← field? fields "server" s.server (server? d)
  let client ← field? fields "client" s.client (client? d)
  return ⟨server, client⟩

/-- The settings of a text; one of blanks alone is all defaults. -/
def parse? (cs : List Char) : Option Settings :=
  if cs.all isBlank then some default else (Yaml.Document.parse? cs).bind ofDocument?

/-- Gives both ends an endpoint: the server a socket file in the directory, its clients the
server's. -/
def resolve (s : Settings) (dir : String) : Settings :=
  let server := s.server.endpoint.getD (.unix (inDirectory dir socketName))
  let client := s.client.endpoint.getD server
  ⟨{ s.server with endpoint := some server }, { s.client with endpoint := some client }⟩

/-- The settings of a directory, from its file if it has one. -/
def load (files : Files) (dir : String) : Except SettingsError Settings :=
  let path := inDirectory dir fileName
  match files.found? (.ofString path) with
  | none => .ok (default.resolve dir)
  | some (.file bytes) =>
    match Utf8.decode? bytes with
    | none => .error (.noText path)
    | some cs =>
      match parse? cs with
      | none => .error (.invalid path)
      | some s => .ok (s.resolve dir)
  | some _ => .error (.unreadable path)

end Settings

end HomeTree
