import HomeTree.Node
import HomeTree.Json.Record
import HomeTree.Json.Printer

namespace HomeTree

/-- A transform as it travels. -/
structure RawTransform where
  method : String
  args : List Json
deriving BEq, Repr

/-- A query as it travels: the text of a selector and transforms in order. -/
structure QuerySpec where
  query : String
  transforms : List RawTransform
deriving BEq, Repr

/-- Where a text stands under a name in a node. Selectors see attributes only. -/
inductive Place where
  | attributes
  | style
deriving DecidableEq, Repr

inductive Transform where
  | read (place : Place) (name : String)
  | write (place : Place) (name value : String)
  /-- A new child of each node. -/
  | append (d : Descriptor)
  /-- A new sibling of each node. -/
  | after (d : Descriptor)
  /-- Removes all descendants of each node. -/
  | empty
  /-- Goes on with the parents. -/
  | parent
  /-- Goes on with the children. -/
  | children
deriving DecidableEq

/-- Why a transform cannot be read. -/
inductive TransformFault where
  | unknownMethod
  | oneOrTwoArguments (given : Nat)
  | oneArgument (given : Nat)
  | noArguments
  | notName (arg : Json)
  | notScalar (arg : Json)
  /-- What is wrong with the descriptor is not told; a constant text stands for it. -/
  | notDescriptor

def TransformFault.message : TransformFault → String
  | .unknownMethod => "unknown method"
  | .oneOrTwoArguments given => "expected 1 or 2 arguments, got " ++ toString given
  | .oneArgument given => "expected 1 argument, got " ++ toString given
  | .noArguments => "takes no arguments"
  | .notName arg => "expected a non-empty string name, got " ++ arg.text
  | .notScalar arg => "expected a scalar value, got " ++ arg.text
  | .notDescriptor => "bad descriptor: not a node descriptor"

def Place.method : Place → String
  | .attributes => "attr"
  | .style => "css"

namespace Descriptor

def toJson (d : Descriptor) : Json :=
  .object [("attributes", .ofTexts d.attributes), ("kind", .string d.kind),
    ("name", .string d.name)]

def ofJson? (j : Json) : Option Descriptor := do
  let r ← Json.Record.ofJson? ["kind", "name", "attributes"] j
  let kind ← r.required? "kind" Json.string?
  let name ← r.required? "name" Json.string?
  let attributes ← r.optional? "attributes" ∅ (Json.dict? Json.string?)
  return ⟨kind, name, attributes⟩

end Descriptor

namespace Transform

def method : Transform → String
  | .read place _ => place.method
  | .write place .. => place.method
  | .append _ => "append"
  | .after _ => "after"
  | .empty => "empty"
  | .parent => "parent"
  | .children => "children"

def isMutating : Transform → Bool
  | .write .. | .append _ | .after _ | .empty => true
  | .read .. | .parent | .children => false

def args : Transform → List Json
  | .read _ name => [.string name]
  | .write _ name value => [.string name, .string value]
  | .append d | .after d => [d.toJson]
  | .empty | .parent | .children => []

def toRaw (t : Transform) : RawTransform :=
  ⟨t.method, t.args⟩

def nameArg : Json → Except TransformFault String
  | .string s => if s = "" then .error (.notName (.string s)) else .ok s
  | arg => .error (.notName arg)

/-- Numbers and truth values stand for their text. -/
def scalarArg : Json → Except TransformFault String
  | .string s => .ok s
  | .number n => .ok (Json.number n).text
  | .bool b => .ok (Json.bool b).text
  | arg => .error (.notScalar arg)

def placed (place : Place) : List Json → Except TransformFault Transform
  | [name] => do return .read place (← nameArg name)
  | [name, value] => do
    let name ← nameArg name
    return .write place name (← scalarArg value)
  | args => .error (.oneOrTwoArguments args.length)

def described (make : Descriptor → Transform) : List Json → Except TransformFault Transform
  | [d] =>
    match Descriptor.ofJson? d with
    | some d => .ok (make d)
    | none => .error .notDescriptor
  | args => .error (.oneArgument args.length)

def bare (t : Transform) : List Json → Except TransformFault Transform
  | [] => .ok t
  | _ => .error .noArguments

def read? (method : String) (args : List Json) : Except TransformFault Transform :=
  if method = "attr" then placed .attributes args
  else if method = "css" then placed .style args
  else if method = "append" then described .append args
  else if method = "after" then described .after args
  else if method = "empty" then bare .empty args
  else if method = "parent" then bare .parent args
  else if method = "children" then bare .children args
  else .error .unknownMethod

def ofRaw (raw : RawTransform) : Except TreeError Transform :=
  match read? raw.method raw.args with
  | .ok t => .ok t
  | .error fault => .error (.invalidTransform raw.method fault.message)

end Transform

namespace RawTransform

def toJson (raw : RawTransform) : Json :=
  .object [("method", .string raw.method), ("args", .array raw.args)]

/-- Arguments are values: their objects come with keys in order. -/
def ofJson? (j : Json) : Option RawTransform := do
  let r ← Json.Record.ofJson? ["method", "args"] j
  let method ← r.required? "method" Json.string?
  let args ← r.optional? "args" [] (Json.list? fun arg => some arg.normal)
  return ⟨method, args⟩

end RawTransform

namespace QuerySpec

def toJson (spec : QuerySpec) : Json :=
  .object [("query", .string spec.query),
    ("transforms", .array (spec.transforms.map RawTransform.toJson))]

def ofJson? (j : Json) : Option QuerySpec := do
  let r ← Json.Record.ofJson? ["query", "transforms"] j
  let query ← r.required? "query" Json.string?
  let transforms ← r.optional? "transforms" [] (Json.list? RawTransform.ofJson?)
  return ⟨query, transforms⟩

end QuerySpec

end HomeTree
