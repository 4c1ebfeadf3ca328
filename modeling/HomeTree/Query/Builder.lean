import HomeTree.Query.Transform
import HomeTree.Selector.Basic

namespace HomeTree

/-- The text of a selector and what to do with the nodes. -/
structure Query where
  selector : String
  transforms : List Transform
deriving DecidableEq

namespace Query

def select (selector : String) : Query :=
  ⟨selector, []⟩

def andThen (q : Query) (t : Transform) : Query :=
  { q with transforms := q.transforms ++ [t] }

def toSpec (q : Query) : QuerySpec :=
  ⟨q.selector, q.transforms.map Transform.toRaw⟩

end Query

/-- The kind of the nodes for objects and arrays. -/
def propertyGroupKind : String := "property-group"

/-- The kind of the nodes for all other values. -/
def propertyKind : String := "property"

/-- The attribute that holds the text of a value. -/
def propertyValueAttribute : String := "value"

/-- A key as the name of a node: blanks become underscores. -/
def propertyName (key : String) : String :=
  String.ofList (key.toList.map fun c => if c = ' ' then '_' else c)

/-- The selector of the group with a name, under what a selector matches. -/
def groupSelector (selector name : String) : String :=
  selector ++ String.ofList ([' ', '>', ' '] ++ propertyGroupKind.toList
    ++ Filter.chars ⟨nameAttribute, some name⟩)

def addGroup (selector name : String) : Query :=
  (Query.select selector).andThen (.append (.plain propertyGroupKind name))

def addProperty (selector name value : String) : Query :=
  (Query.select selector).andThen (.append
    ⟨propertyKind, name, (∅ : Dict String).insert propertyValueAttribute value⟩)

/-- Strings stand for themselves, null for nothing. -/
def scalarText : Json → String
  | .string s => s
  | .null => ""
  | j => j.text

mutual

/-- The queries that spell out an object or array below what a selector matches: a group for each
nested value and then its contents, a property for each other one; items are named by position. -/
def propertyQueries (selector : String) : Json → List Query
  | .object members => memberQueries selector members
  | .array items => itemQueries selector 0 items
  | _ => []

def memberQueries (selector : String) : List (String × Json) → List Query
  | [] => []
  | (key, value) :: rest =>
    valueQueries selector (propertyName key) value ++ memberQueries selector rest

def itemQueries (selector : String) (position : Nat) : List Json → List Query
  | [] => []
  | value :: rest =>
    valueQueries selector (toString position) value ++ itemQueries selector (position + 1) rest

def valueQueries (selector name : String) : Json → List Query
  | .object members =>
    addGroup selector name :: memberQueries (groupSelector selector name) members
  | .array items =>
    addGroup selector name :: itemQueries (groupSelector selector name) 0 items
  | value => [addProperty selector name (scalarText value)]

end

end HomeTree
