import HomeTree.Message.Basic
import HomeTree.Json.Reading

namespace HomeTree

open Json (Record)

namespace TreeError

def toJson : TreeError → Json
  | .malformedPath path reason =>
    .object [("kind", .string "MalformedPath"), ("path", .string path),
      ("reason", .string reason)]
  | .invalidPathComponent component =>
    .object [("kind", .string "InvalidPathComponent"), ("component", .string component)]
  | .noSuchNode path => .object [("kind", .string "NoSuchNode"), ("path", .string path)]
  | .nodeAlreadyExists path =>
    .object [("kind", .string "NodeAlreadyExists"), ("path", .string path)]
  | .nodeContainsChildren path =>
    .object [("kind", .string "NodeContainsChildren"), ("path", .string path)]
  | .invalidSelector selector reason =>
    .object [("kind", .string "InvalidSelector"), ("selector", .string selector),
      ("reason", .string reason)]
  | .invalidTransform method reason =>
    .object [("kind", .string "InvalidTransform"), ("method", .string method),
      ("reason", .string reason)]
  | .invalidKind kind => .object [("kind", .string "InvalidKind"), ("node_kind", .string kind)]
  | .immutableAttribute path name =>
    .object [("kind", .string "ImmutableAttribute"), ("path", .string path),
      ("attribute", .string name)]
  | .noSuchSubscription id =>
    .object [("kind", .string "NoSuchSubscription"), ("id", .nat id)]
  | .protocol reason => .object [("kind", .string "Protocol"), ("reason", .string reason)]

def variants : List String :=
  ["MalformedPath", "InvalidPathComponent", "NoSuchNode", "NodeAlreadyExists",
    "NodeContainsChildren", "InvalidSelector", "InvalidTransform", "InvalidKind",
    "ImmutableAttribute", "NoSuchSubscription", "Protocol"]

/-- A record whose one field is a text. -/
def ofText? (field : String) (make : String → TreeError) (j : Json) : Option TreeError := do
  let r ← Record.ofJson? [field] j
  return make (← r.required? field Json.string?)

def ofTexts? (first second : String) (make : String → String → TreeError) (j : Json) :
    Option TreeError := do
  let r ← Record.ofJson? [first, second] j
  return make (← r.required? first Json.string?) (← r.required? second Json.string?)

def ofVariant? (variant : String) (fields : Json) : Option TreeError :=
  if variant = "MalformedPath" then ofTexts? "path" "reason" .malformedPath fields
  else if variant = "InvalidPathComponent" then
    ofText? "component" .invalidPathComponent fields
  else if variant = "NoSuchNode" then ofText? "path" .noSuchNode fields
  else if variant = "NodeAlreadyExists" then ofText? "path" .nodeAlreadyExists fields
  else if variant = "NodeContainsChildren" then ofText? "path" .nodeContainsChildren fields
  else if variant = "InvalidSelector" then ofTexts? "selector" "reason" .invalidSelector fields
  else if variant = "InvalidTransform" then ofTexts? "method" "reason" .invalidTransform fields
  else if variant = "InvalidKind" then ofText? "node_kind" .invalidKind fields
  else if variant = "ImmutableAttribute" then
    ofTexts? "path" "attribute" .immutableAttribute fields
  else if variant = "NoSuchSubscription" then do
    let r ← Record.ofJson? ["id"] fields
    return .noSuchSubscription (← r.required? "id" Json.word?)
  else if variant = "Protocol" then ofText? "reason" .protocol fields
  else none

def ofJson? (inner : Bool) (j : Json) : Option TreeError := do
  let (variant, fields) ← Json.tagged? "kind" variants inner j
  ofVariant? variant fields

end TreeError

/-- A field for a dictionary that is left out when empty. -/
def unlessEmpty (name : String) (d : Dict String) : List (String × Json) :=
  if d.isEmpty then [] else [(name, .ofTexts d)]

namespace Node

def toJson (n : Node) : Json :=
  .object ([("path", .string n.path),
      ("name", match n.name with
        | some name => .string name
        | none => .null),
      ("kind", .string n.kind), ("attributes", .ofTexts n.attributes)]
    ++ unlessEmpty "style" n.style
    ++ [("children", .ofNames n.children.toList)])

def ofJson? (j : Json) : Option Node := do
  let r ← Record.ofJson? ["path", "name", "kind", "attributes", "style", "children"] j
  let path ← r.required? "path" Json.string?
  let name ← r.optional? "name" none (Json.nullable? Json.string?)
  let kind ← r.required? "kind" Json.string?
  let attributes ← r.optional? "attributes" ∅ (Json.dict? Json.string?)
  let style ← r.optional? "style" ∅ (Json.dict? Json.string?)
  let children ← r.optional? "children" [] (Json.list? Json.string?)
  return ⟨path, name, kind, attributes, style, .ofList children⟩

end Node

namespace MatchedNode

def toJson (n : MatchedNode) : Json :=
  .object ([("kind", .string n.kind), ("attributes", .ofTexts n.attributes)]
    ++ unlessEmpty "style" n.style
    ++ match n.value with
      | some value => [("value", .string value)]
      | none => [])

def ofJson? (j : Json) : Option MatchedNode := do
  let r ← Record.ofJson? ["kind", "attributes", "style", "value"] j
  let kind ← r.required? "kind" Json.string?
  let attributes ← r.optional? "attributes" ∅ (Json.dict? Json.string?)
  let style ← r.optional? "style" ∅ (Json.dict? Json.string?)
  let value ← r.optional? "value" none (Json.nullable? Json.string?)
  return ⟨kind, attributes, style, value⟩

end MatchedNode

def queryResultJson (r : QueryResult) : Json :=
  .object (r.entries.map fun e => (e.1, e.2.toJson))

/-- What one member of a group answered. -/
def memberJson : Except TreeError QueryResult → Json
  | .ok r => .object [("Ok", queryResultJson r)]
  | .error e => .object [("Err", e.toJson)]

def member? : Json → Option (Except TreeError QueryResult)
  | .object [(key, value)] =>
    if key = "Ok" then (Json.dict? MatchedNode.ofJson? value).map .ok
    else if key = "Err" then (TreeError.ofJson? true value).map .error
    else none
  | _ => none

namespace ChangeEvent

def fields : ChangeEvent → List (String × Json)
  | .created kind => [("event", .string "created"), ("kind", .string kind)]
  | .removed => [("event", .string "removed")]
  | .attributeSet name value =>
    [("event", .string "attribute"), ("name", .string name), ("value", .string value)]
  | .styleSet name value =>
    [("event", .string "style"), ("name", .string name), ("value", .string value)]

def variants : List String := ["created", "removed", "attribute", "style"]

def ofVariant? (variant : String) (fields : Json) : Option ChangeEvent :=
  if variant = "created" then do
    let r ← Record.ofJson? ["kind"] fields
    return .created (← r.required? "kind" Json.string?)
  else if variant = "removed" then (Json.unit? fields).map fun _ => .removed
  else if variant = "attribute" then do
    let r ← Record.ofJson? ["name", "value"] fields
    return .attributeSet (← r.required? "name" Json.string?) (← r.required? "value" Json.string?)
  else if variant = "style" then do
    let r ← Record.ofJson? ["name", "value"] fields
    return .styleSet (← r.required? "name" Json.string?) (← r.required? "value" Json.string?)
  else none

end ChangeEvent

namespace ChangeRecord

/-- The path and the event share one object. -/
def toJson (c : ChangeRecord) : Json :=
  .object (("path", .string c.path) :: c.event.fields)

def ofJson? : Json → Option ChangeRecord
  | .object members => do
    let r ← Record.ofJson? ["path"] (.object members)
    let path ← r.required? "path" Json.string?
    let others := members.filter fun m => m.1 != "path"
    let (variant, fields) ← Json.tagged? "event" ChangeEvent.variants true (.object others)
    return ⟨path, ← ChangeEvent.ofVariant? variant fields⟩
  | _ => none

end ChangeRecord

namespace Push

def fields (p : Push) : List (String × Json) :=
  [("subscription_id", .nat p.subscription), ("target", .string p.target),
    ("changed_paths", .ofNames p.changedPaths),
    ("context", .array (p.context.map ChangeRecord.toJson))]

def toJson (p : Push) : Json :=
  .object p.fields

def ofJson? (j : Json) : Option Push := do
  let r ← Record.ofJson? ["subscription_id", "target", "changed_paths", "context"] j
  let subscription ← r.required? "subscription_id" Json.word?
  let target ← r.required? "target" Json.string?
  let changedPaths ← r.required? "changed_paths" (Json.list? Json.string?)
  let context ← r.required? "context" (Json.list? ChangeRecord.ofJson?)
  return ⟨subscription, target, changedPaths, context⟩

end Push

namespace Message

def fields : Message → List (String × Json)
  | .ping text => [("ping", .string text)]
  | .pong text => [("pong", .string text)]
  | .subscribe target => [("target", .string target)]
  | .subscribed id target => [("subscription_id", .nat id), ("target", .string target)]
  | .unsubscribe id => [("subscription_id", .nat id)]
  | .query group => [("query_group", .array (group.map QuerySpec.toJson))]
  | .queryResult results => [("results", .array (results.map memberJson))]
  | .createChild parent name kind =>
    [("parent_path", .string parent), ("name", .string name)]
      ++ match kind with
        | some kind => [("kind", .string kind)]
        | none => []
  | .removeChild parent name => [("parent_path", .string parent), ("name", .string name)]
  | .listChildren path => [("path", .string path)]
  | .children names => [("children", .ofNames names.toList)]
  | .getNode path => [("path", .string path)]
  | .node n => [("node", n.toJson)]
  | .ok => []
  | .shutdown => []
  | .error operation e => [("operation", .string operation), ("error", e.toJson)]
  | .push p => p.fields

def toJson (m : Message) : Json :=
  .object (("type", .string m.name) :: m.fields)

def variants : List String :=
  ["ping", "pong", "subscribe", "subscribed", "unsubscribe", "query", "query_result",
    "create_child", "remove_child", "list_children", "children", "get_node", "node", "ok",
    "shutdown", "error", "push"]

/-- A record whose one field is a text. -/
def ofText? (field : String) (make : String → Message) (j : Json) : Option Message := do
  let r ← Record.ofJson? [field] j
  return make (← r.required? field Json.string?)

def ofVariant? (variant : String) (fields : Json) : Option Message :=
  if variant = "ping" then ofText? "ping" .ping fields
  else if variant = "pong" then ofText? "pong" .pong fields
  else if variant = "subscribe" then ofText? "target" .subscribe fields
  else if variant = "subscribed" then do
    let r ← Record.ofJson? ["subscription_id", "target"] fields
    return .subscribed (← r.required? "subscription_id" Json.word?)
      (← r.required? "target" Json.string?)
  else if variant = "unsubscribe" then do
    let r ← Record.ofJson? ["subscription_id"] fields
    return .unsubscribe (← r.required? "subscription_id" Json.word?)
  else if variant = "query" then do
    let r ← Record.ofJson? ["query_group"] fields
    return .query (← r.required? "query_group" (Json.list? QuerySpec.ofJson?))
  else if variant = "query_result" then do
    let r ← Record.ofJson? ["results"] fields
    return .queryResult (← r.required? "results" (Json.list? member?))
  else if variant = "create_child" then do
    let r ← Record.ofJson? ["parent_path", "name", "kind"] fields
    return .createChild (← r.required? "parent_path" Json.string?)
      (← r.required? "name" Json.string?)
      (← r.optional? "kind" none (Json.nullable? Json.string?))
  else if variant = "remove_child" then do
    let r ← Record.ofJson? ["parent_path", "name"] fields
    return .removeChild (← r.required? "parent_path" Json.string?)
      (← r.required? "name" Json.string?)
  else if variant = "list_children" then ofText? "path" .listChildren fields
  else if variant = "children" then do
    let r ← Record.ofJson? ["children"] fields
    return .children (.ofList (← r.required? "children" (Json.list? Json.string?)))
  else if variant = "get_node" then ofText? "path" .getNode fields
  else if variant = "node" then do
    let r ← Record.ofJson? ["node"] fields
    return .node (← r.required? "node" Node.ofJson?)
  else if variant = "ok" then (Json.unit? fields).map fun _ => .ok
  else if variant = "shutdown" then (Json.unit? fields).map fun _ => .shutdown
  else if variant = "error" then do
    let r ← Record.ofJson? ["operation", "error"] fields
    return .error (← r.required? "operation" Json.string?)
      (← r.required? "error" (TreeError.ofJson? true))
  else if variant = "push" then (Push.ofJson? fields).map .push
  else none

def ofJson? (j : Json) : Option Message := do
  let (variant, fields) ← Json.tagged? "type" variants false j
  ofVariant? variant fields

end Message

namespace Frame

def toJson (f : Frame) : Json :=
  .object [("token", .nat f.token), ("message", f.message.toJson)]

def ofJson? (j : Json) : Option Frame := do
  let r ← Record.ofJson? ["token", "message"] j
  let token ← r.required? "token" Json.word?
  let message ← r.required? "message" Message.ofJson?
  return ⟨token, message⟩

/-- The bytes of a frame without its length. -/
def payload (f : Frame) : List UInt8 :=
  Utf8.encode f.toJson.chars

/-- The frame of a payload; other members than its two are skipped unread. -/
def ofPayload? (bytes : List UInt8) : Option Frame := do
  let source ← Json.Source.parse? bytes
  ofJson? (← source.readRecord? ["token", "message"])

/-- The token of a payload, all else skipped unread. -/
def tokenOfPayload? (bytes : List UInt8) : Option Token := do
  let source ← Json.Source.parse? bytes
  let r ← Record.ofJson? ["token"] (← source.readRecord? ["token"])
  r.required? "token" Json.word?

end Frame

end HomeTree
