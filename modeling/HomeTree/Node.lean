import HomeTree.Dict
import HomeTree.Path.Basic

namespace HomeTree

/-- The kind of the root and of no other node. -/
def rootKind : String := "root"

/-- The kind of a node that is created without one. -/
def defaultKind : String := "node"

/-- The attribute under which a node's name is read; it cannot be written. -/
def nameAttribute : String := "name"

/-- Characters of kinds, and of names in selectors. -/
def isWordChar (c : Char) : Bool :=
  c.isAlphanum || c == '_' || c == '-'

def validKind (kind : String) : Bool :=
  kind != "" && kind.toList.all isWordChar && kind != rootKind

def checkKind (kind : String) : Except TreeError Unit :=
  if validKind kind then .ok () else .error (.invalidKind kind)

/-- A node with all that can be read of it. The root has no name. -/
structure Node where
  path : String
  name : Option String
  kind : String
  attributes : Dict String
  style : Dict String
  children : NameSet
deriving DecidableEq

/-- What selectors see of a node. -/
structure Summary where
  name : Option String
  kind : String
  attributes : Dict String
deriving DecidableEq

/-- A node to be created. -/
structure Descriptor where
  kind : String
  name : String
  attributes : Dict String
deriving DecidableEq

def Descriptor.plain (kind name : String) : Descriptor :=
  ⟨kind, name, ∅⟩

inductive ChangeEvent where
  | created (kind : String)
  | removed
  | attributeSet (name value : String)
  | styleSet (name value : String)
deriving DecidableEq

/-- One change of one node. The lineage leads from the root to the node; it is taken after the
change, and before it for a removal. -/
structure Change where
  path : Path
  event : ChangeEvent
  lineage : List Summary
deriving DecidableEq

/-- A change as it is told to subscribers. -/
structure ChangeRecord where
  path : String
  event : ChangeEvent
deriving DecidableEq

def Change.record (c : Change) : ChangeRecord :=
  ⟨c.path.text, c.event⟩

end HomeTree
