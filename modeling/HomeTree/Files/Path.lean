import HomeTree.Text.Parts
import HomeTree.Text.Utf8

namespace HomeTree

/-- A name in a directory. -/
def inDirectory (directory name : String) : String :=
  if directory = "" ∨ directory.toList.getLast? = some '/' then directory ++ name
  else directory ++ "/" ++ name

structure FilePath where
  absolute : Bool
  /-- Idle names among them. -/
  names : List (List Char)
deriving DecidableEq, Repr

namespace FilePath

def ofChars (cs : List Char) : FilePath :=
  match cs with
  | '/' :: rest => ⟨true, parts '/' rest⟩
  | cs => ⟨false, parts '/' cs⟩

def ofString (s : String) : FilePath :=
  ofChars s.toList

def isIdle (name : List Char) : Bool :=
  name == [] || name == ['.']

def isUp (name : List Char) : Bool :=
  name == ['.', '.']

/-- The bytes of the path as it is written. -/
def size (p : FilePath) : Nat :=
  (if p.absolute then 1 else 0) + (p.names.map fun name => Utf8.size name + 1).foldr (· + ·) 0 - 1

def isEmpty (p : FilePath) : Bool :=
  !p.absolute && (p.names == [] || p.names == [[]])

def hasNul (p : FilePath) : Bool :=
  p.names.any (·.contains '\x00')

/-- The path up to its last name that is not idle. A single name has nothing in front of it. -/
def parent? (p : FilePath) : Option FilePath :=
  let back := (p.names.reverse.dropWhile isIdle).drop 1
  match (back.dropWhile isIdle).reverse with
  | [] => none
  | names => some ⟨p.absolute, names⟩

end FilePath

end HomeTree
