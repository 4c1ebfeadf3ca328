import HomeTree.Endpoint
import HomeTree.Files.Basic
import HomeTree.Network.ServiceAddress

/-!
Listening at endpoints and finding who listens. A socket file needs a path that fits a socket
address; the directories on the way to it are made where they are missing, and what lies in its
place is removed unless it is a directory. A network address needs a host that is known and a
number. There is no network but the addresses to listen at, so that nobody is reached there.
-/

namespace HomeTree

/-- Why an endpoint has no address, as far as the system does not say it. -/
inductive AddressFault where
  | hasNul
  | tooLong
  /-- A path with the character 0, where a directory on the way is to be made. -/
  | fileHasNul
  | service (fault : ServiceFault)
deriving DecidableEq, Repr

def AddressFault.message : AddressFault → String
  | .hasNul => "paths must not contain interior null bytes"
  | .tooLong => "path must be shorter than SUN_LEN"
  | .fileHasNul => ServiceFault.hasNul.message
  | .service fault => fault.message

/-- Why a daemon does not listen at an endpoint, or is not found there. -/
inductive EndpointRefusal where
  | system
  | address (fault : AddressFault)
deriving DecidableEq, Repr

/-- How a message about it ends; the words of the system are not known. -/
def EndpointRefusal.ending : EndpointRefusal → String
  | .system => ""
  | .address fault => ": " ++ fault.message

namespace Endpoint

/-- The bytes that a socket address has room for, with a zero behind the path. -/
def pathLimit : Nat := 108

/-- Whether a path fits a socket address. -/
def checkSocketPath (path : String) : Except EndpointRefusal Unit :=
  if path.toList.contains '\x00' then .error (.address .hasNul)
  else if pathLimit ≤ Utf8.size path.toList then .error (.address .tooLong)
  else .ok ()

def fileRefusal : FileError → EndpointRefusal
  | .hasNul => .address .fileHasNul
  | _ => .system

def fileResult {α : Type} (r : Except FileError α) : Except EndpointRefusal α :=
  r.mapError fileRefusal

/-- The files without what lies in the place of a socket file. -/
def cleared (files : Files) (p : FilePath) : Except EndpointRefusal Files :=
  if (files.found? p).isSome then fileResult (files.remove p) else .ok files

/-- The files with a new socket file. What was done before a fault is kept. -/
def withSocket (files : Files) (path : String) : Files × Except EndpointRefusal Unit :=
  let p := FilePath.ofString path
  match cleared files p with
  | .error e => (files, .error e)
  | .ok files =>
    let (files, made) := match p.parent? with
      | some parent => files.makeDirectories parent
      | none => (files, .ok ())
    match fileResult made, checkSocketPath path with
    | .error e, _ => (files, .error e)
    | .ok _, .error e => (files, .error e)
    | .ok _, .ok _ =>
      match files.makeSocket p with
      | .ok files => (files, .ok ())
      | .error e => (files, .error (fileRefusal e))

/-- The network endpoint where a service listens. -/
def listening (address : String) : Except EndpointRefusal Endpoint :=
  match ServiceAddress.ofChars address.toList with
  | .error fault => .error (.address (.service fault))
  | .ok s =>
    match s.listeningText? with
    | some text => .ok (.tcp text)
    | none => .error .system

/-- Binds an endpoint; returns what was bound. -/
def bind (files : Files) : Endpoint → Files × Except EndpointRefusal Endpoint
  | .unix path =>
    let (files, made) := withSocket files path
    (files, made.map fun _ => .unix path)
  | .tcp address => (files, listening address)

/-- Looks for a socket file, or for a service in the network, where none is found. -/
def connect (files : Files) : Endpoint → Except EndpointRefusal Unit
  | .unix path => do
    checkSocketPath path
    if files.found? (FilePath.ofString path) = some .socket then .ok () else .error .system
  | .tcp address =>
    match ServiceAddress.ofChars address.toList with
    | .error fault => .error (.address (.service fault))
    | .ok _ => .error .system

/-- The files without the socket file of an endpoint. -/
def released (files : Files) : Endpoint → Files
  | .unix path => ((files.remove (FilePath.ofString path)).toOption).getD files
  | .tcp _ => files

end Endpoint

end HomeTree
