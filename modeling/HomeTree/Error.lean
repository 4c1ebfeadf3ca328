namespace HomeTree

inductive TreeError where
  /-- The path is not absolute or has a component that no node can have. -/
  | malformedPath (path reason : String)
  | invalidPathComponent (component : String)
  | noSuchNode (path : String)
  | nodeAlreadyExists (path : String)
  | nodeContainsChildren (path : String)
  | invalidSelector (selector reason : String)
  /-- An unknown method, or arguments of the wrong shape. -/
  | invalidTransform (method reason : String)
  | invalidKind (kind : String)
  | immutableAttribute (path name : String)
  | noSuchSubscription (id : Nat)
  /-- A frame that is not something a server accepts. -/
  | protocol (reason : String)
deriving DecidableEq, Repr

namespace TreeError

def name : TreeError → String
  | .malformedPath .. => "MalformedPath"
  | .invalidPathComponent _ => "InvalidPathComponent"
  | .noSuchNode _ => "NoSuchNode"
  | .nodeAlreadyExists _ => "NodeAlreadyExists"
  | .nodeContainsChildren _ => "NodeContainsChildren"
  | .invalidSelector .. => "InvalidSelector"
  | .invalidTransform .. => "InvalidTransform"
  | .invalidKind _ => "InvalidKind"
  | .immutableAttribute .. => "ImmutableAttribute"
  | .noSuchSubscription _ => "NoSuchSubscription"
  | .protocol _ => "Protocol"

def message : TreeError → String
  | .malformedPath path reason => "malformed path '" ++ path ++ "': " ++ reason
  | .invalidPathComponent component => "invalid path component '" ++ component ++ "'"
  | .noSuchNode path => "no such node: " ++ path
  | .nodeAlreadyExists path => "node already exists: " ++ path
  | .nodeContainsChildren path => "node contains children: " ++ path
  | .invalidSelector selector reason => "invalid selector '" ++ selector ++ "': " ++ reason
  | .invalidTransform method reason => "invalid transform '" ++ method ++ "': " ++ reason
  | .invalidKind kind => "invalid node kind '" ++ kind ++ "'"
  | .immutableAttribute path name =>
    "attribute '" ++ name ++ "' of " ++ path ++ " cannot be written"
  | .noSuchSubscription id => "no such subscription: " ++ toString id
  | .protocol reason => "protocol error: " ++ reason

end TreeError

/-- What can fail without a look at the state, where a state is being changed. -/
instance {σ : Type} : MonadLift (Except TreeError) (EStateM TreeError σ) where
  monadLift r s :=
    match r with
    | .ok a => .ok a s
    | .error e => .error e s

end HomeTree
