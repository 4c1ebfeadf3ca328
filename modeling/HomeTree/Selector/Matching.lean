import HomeTree.Selector.Basic

namespace HomeTree

/-- What a selector can see of a node. -/
class Facet (ν : Type) where
  name : ν → Option String
  kind : ν → String
  attribute? : ν → String → Option String

instance : Facet Summary where
  name := Summary.name
  kind := Summary.kind
  attribute? s := s.attributes.get?

section

variable {ν : Type} [Facet ν]

/-- The text a filter sees under a name; `name` is the node's own name. -/
def Facet.read? (n : ν) (name : String) : Option String :=
  if name = nameAttribute then Facet.name n else Facet.attribute? n name

def Filter.accepts (f : Filter) (n : ν) : Bool :=
  match Facet.read? n f.name, f.value with
  | none, _ => false
  | some _, none => true
  | some actual, some expected => expected == actual

def Step.accepts (step : Step) (n : ν) : Bool :=
  (match step.kind with
    | none => true
    | some k => k == Facet.kind n)
  && step.filters.all fun f => f.accepts n

/-- Steps and nodes one to one, as far as the steps reach. -/
def acceptsAlong : List Step → List ν → Bool
  | [], _ => true
  | step :: steps, n :: ns => step.accepts n && acceptsAlong steps ns
  | _ :: _, [] => false

/-- The last step is for the node, the one before for its parent, and so on; a chain may begin at
any depth, and one without steps matches nothing. -/
def Chain.accepts (c : Chain) (lineage : List ν) : Bool :=
  !c.steps.isEmpty && acceptsAlong c.steps.reverse lineage.reverse

/-- Whether one of the chains leads from somewhere above a node down to it. -/
def Selector.accepts (s : Selector) (lineage : List ν) : Bool :=
  s.chains.any fun c => c.accepts lineage

end

end HomeTree
