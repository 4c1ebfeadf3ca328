import HomeTree.Error
import HomeTree.Text.Parts

namespace HomeTree

structure Path where
  components : List String
deriving DecidableEq, Repr, Inhabited

/-- Why a text is no path. -/
inductive PathFault where
  | notAbsolute
  | emptyComponent
  | relativeComponent (component : String)
deriving DecidableEq, Repr

def PathFault.message : PathFault → String
  | .notAbsolute => "path must start with '/'"
  | .emptyComponent => "empty path component"
  | .relativeComponent component => "'" ++ component ++ "' is not allowed"

/-- Whether a name can be one component of a path. -/
def validComponent (name : String) : Bool :=
  name != "" && !name.toList.contains '/' && name != "." && name != ".."

def checkComponent (name : String) : Except TreeError Unit :=
  if validComponent name then .ok () else .error (.invalidPathComponent name)

namespace Path

def root : Path := ⟨[]⟩

def isRoot (p : Path) : Bool := p.components.isEmpty

def depth (p : Path) : Nat := p.components.length

/-- The last component; the root has none. -/
def name? (p : Path) : Option String := p.components.getLast?

def parent? (p : Path) : Option Path :=
  if p.isRoot then none else some ⟨p.components.dropLast⟩

/-- The path of a child, without asking whether the name is a component. -/
def child (p : Path) (name : String) : Path := ⟨p.components ++ [name]⟩

def join (p : Path) (name : String) : Except TreeError Path := do
  checkComponent name
  return p.child name

/-- Component lists are compared entry by entry, a list before its continuations. -/
def le (p q : Path) : Bool := !decide (q.components < p.components)

def chars (p : Path) : List Char :=
  if p.isRoot then ['/'] else p.components.flatMap fun c => '/' :: c.toList

/-- The text of a path, without a slash at its end unless it is the root. -/
def text (p : Path) : String := String.ofList p.chars

instance : ToString Path := ⟨text⟩

def checkPart (part : List Char) : Except PathFault String :=
  if part = [] then .error .emptyComponent
  else if part = ['.'] ∨ part = ['.', '.'] then .error (.relativeComponent (String.ofList part))
  else .ok (String.ofList part)

/-- The text behind the first slash without a slash at its end; one slash alone stays. -/
def withoutLastSlash (cs : List Char) : List Char :=
  if 1 < cs.length ∧ cs.getLast? = some '/' then cs.dropLast else cs

def ofChars : List Char → Except PathFault Path
  | [] => .error .notAbsolute
  | c :: rest =>
    if c = '/' then
      let rest := withoutLastSlash rest
      if rest = [] then .ok root
      else ((parts '/' rest).mapM checkPart).map Path.mk
    else .error .notAbsolute

/-- The path of a text; the first bad component is reported. -/
def parse (s : String) : Except TreeError Path :=
  match ofChars s.toList with
  | .ok p => .ok p
  | .error fault => .error (.malformedPath s fault.message)

end Path

end HomeTree
