import HomeTree.Query.Plan

namespace HomeTree

abbrev Token : Type := Nat

/-- Pushes have it, too. -/
def handshakeToken : Token := 0

/-- What a subscription is told of one request. -/
structure Push where
  subscription : Nat
  target : String
  changedPaths : List String
  context : List ChangeRecord
deriving DecidableEq

instance : BEq (Except TreeError QueryResult) where
  beq
    | .ok a, .ok b => a == b
    | .error a, .error b => a == b
    | _, _ => false

inductive Message where
  | ping (text : String)
  | pong (text : String)
  | subscribe (target : String)
  | subscribed (id : Nat) (target : String)
  | unsubscribe (id : Nat)
  | query (group : List QuerySpec)
  | queryResult (results : List (Except TreeError QueryResult))
  | createChild (parent name : String) (kind : Option String)
  | removeChild (parent name : String)
  | listChildren (path : String)
  | children (names : NameSet)
  | getNode (path : String)
  | node (node : Node)
  | ok
  | shutdown
  | error (operation : String) (error : TreeError)
  | push (push : Push)
deriving BEq

/-- The tag of a message; errors name the request by it. -/
def Message.name : Message → String
  | .ping _ => "ping"
  | .pong _ => "pong"
  | .subscribe _ => "subscribe"
  | .subscribed .. => "subscribed"
  | .unsubscribe _ => "unsubscribe"
  | .query _ => "query"
  | .queryResult _ => "query_result"
  | .createChild .. => "create_child"
  | .removeChild .. => "remove_child"
  | .listChildren _ => "list_children"
  | .children _ => "children"
  | .getNode _ => "get_node"
  | .node _ => "node"
  | .ok => "ok"
  | .shutdown => "shutdown"
  | .error .. => "error"
  | .push _ => "push"

def Message.isShutdown : Message → Bool
  | .shutdown => true
  | _ => false

structure Frame where
  token : Token
  message : Message
deriving BEq

def Frame.ofPush (p : Push) : Frame :=
  ⟨handshakeToken, .push p⟩

end HomeTree
