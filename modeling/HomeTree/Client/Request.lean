import HomeTree.Client.Routing

namespace HomeTree

inductive Request where
  | createChild (parent name : String) (kind : Option String)
  | removeChild (parent name : String)
  | listChildren (path : String)
  | getNode (path : String)
  | subscribe (target : String)
  | unsubscribe (id : Nat)
  | ping (text : String)
  /-- A query alone; its error is the error of the whole. -/
  | query (spec : QuerySpec)
  /-- Queries that are answered one by one. -/
  | group (specs : List QuerySpec)
  | shutdown

inductive Reply where
  | done
  | names (names : NameSet)
  | node (node : Node)
  | subscription (id : Nat)
  | text (text : String)
  | result (result : QueryResult)
  | results (results : List (Except TreeError QueryResult))

namespace Request

def message : Request → Message
  | .createChild parent name kind => .createChild parent name kind
  | .removeChild parent name => .removeChild parent name
  | .listChildren path => .listChildren path
  | .getNode path => .getNode path
  | .subscribe target => .subscribe target
  | .unsubscribe id => .unsubscribe id
  | .ping text => .ping text
  | .query spec => .query [spec]
  | .group specs => .query specs
  | .shutdown => .shutdown

/-- Errors name a request by its message. -/
def operation (r : Request) : String :=
  r.message.name

/-- Pushes for a new subscription go to the callback. -/
def followUp {κ : Type} (callback : κ) : Request → Option (FollowUp κ)
  | .subscribe _ => some (.install callback)
  | .unsubscribe id => some (.remove id)
  | _ => none

/-- The error that a reply of the wrong kind stands for. -/
def unexpected (r : Request) : Message → ClientError
  | .error operation e => .tree operation e
  | m => .protocol r.operation m.name

/-- The one result of a query alone. -/
def single (r : Request) (results : List (Except TreeError QueryResult)) :
    Except ClientError Reply :=
  match results with
  | [.ok result] => .ok (.result result)
  | [.error e] => .error (.tree r.operation e)
  | _ =>
    .error (.protocol r.operation
      ("query_result with " ++ toString results.length ++ " members"))

def reply (r : Request) (m : Message) : Except ClientError Reply :=
  match r, m with
  | .createChild .., .ok => .ok .done
  | .removeChild .., .ok => .ok .done
  | .unsubscribe _, .ok => .ok .done
  | .shutdown, .ok => .ok .done
  | .listChildren _, .children names => .ok (.names names)
  | .getNode _, .node n => .ok (.node n)
  | .subscribe _, .subscribed id _ => .ok (.subscription id)
  | .ping _, .pong text => .ok (.text text)
  | .query _, .queryResult results => r.single results
  | .group _, .queryResult results => .ok (.results results)
  | _, m => .error (r.unexpected m)

end Request

end HomeTree
