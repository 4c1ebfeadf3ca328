import HomeTree.Files.Path

/-!
Files: directories, what lies in them, and how paths lead there. Every name on a path but the last
has to lead to a directory that is there. Relative paths begin in a directory of their own, which
has no name and so cannot be reached from the root.
-/

namespace HomeTree

inductive FileEntry where
  | directory
  | file (bytes : List UInt8)
  | socket
deriving DecidableEq, Repr

/-- The names that lead to a place from the root. -/
abbrev FilePlace : Type := List (List Char)

/-- Why a path does not lead where it should. -/
inductive FileError where
  | missing
  | notDirectory
  | isDirectory
  /-- There is something already. -/
  | taken
  | tooLong
  /-- A path with the character 0 stands for nothing. -/
  | hasNul
deriving DecidableEq, Repr

/-- What lies below the root. -/
structure Files where
  entries : List (FilePlace × FileEntry)
deriving Repr

namespace Files

/-- Where relative paths begin. -/
def here : FilePlace := [[]]

/-- Two directories with nothing in them: the root, and the one where relative paths begin. -/
def empty : Files := ⟨[(here, .directory)]⟩

def entry? (f : Files) (p : FilePlace) : Option FileEntry :=
  if p = [] then some .directory else f.entries.lookup p

/-- The bytes that a name may have. -/
def nameLimit : Nat := 255

/-- The bytes that a path may not have. -/
def pathLimit : Nat := 4096

/-- From a directory to what a name in it stands for. -/
def enter (f : Files) (p : FilePlace) (name : List Char) : Except FileError FilePlace :=
  if f.entry? p ≠ some .directory then .error .notDirectory
  else if FilePath.isIdle name then .ok p
  else if FilePath.isUp name then .ok p.dropLast
  else if nameLimit < Utf8.size name then .error .tooLong
  else if (f.entry? (p ++ [name])).isSome then .ok (p ++ [name])
  else .error .missing

def walk (f : Files) (absolute : Bool) (names : List (List Char)) : Except FileError FilePlace :=
  names.foldlM f.enter (if absolute then [] else here)

def check (p : FilePath) : Except FileError Unit :=
  if p.hasNul then .error .hasNul
  else if p.isEmpty then .error .missing
  else if pathLimit ≤ p.size then .error .tooLong
  else .ok ()

/-- The place that a path leads to. -/
def find (f : Files) (p : FilePath) : Except FileError FilePlace := do
  check p
  f.walk p.absolute p.names

def found? (f : Files) (p : FilePath) : Option FileEntry :=
  match f.find p with
  | .ok place => f.entry? place
  | .error _ => none

def isDirectory (f : Files) (p : FilePath) : Bool :=
  f.found? p == some .directory

/-- The place of something new under the last of some names. -/
def newPlace (f : Files) (absolute : Bool) (names : List (List Char)) :
    Except FileError FilePlace := do
  let parent ← f.walk absolute names.dropLast
  match names.getLast? with
  | none => .error .taken
  | some name =>
    match f.enter parent name with
    | .ok _ => .error .taken
    | .error .missing => .ok (parent ++ [name])
    | .error e => .error e

def insert (f : Files) (p : FilePlace) (e : FileEntry) : Files :=
  ⟨(p, e) :: f.entries.filter (·.1 != p)⟩

/-- Makes a directory; slashes may follow its name. -/
def makeDirectory (f : Files) (p : FilePath) : Except FileError Files := do
  check p
  let names := (p.names.reverse.dropWhile (·.isEmpty)).reverse
  return f.insert (← f.newPlace p.absolute names) .directory

def makeDirectoriesFrom : Nat → Files → FilePath → Files × Except FileError Unit
  | 0, f, _ => (f, .error .missing)
  | fuel + 1, f, p =>
    let settle (f : Files) : Files × Except FileError Unit :=
      match f.makeDirectory p with
      | .ok f => (f, .ok ())
      | .error e => (f, if f.isDirectory p then .ok () else .error e)
    match f.makeDirectory p, p.parent? with
    | .error .missing, some parent =>
      match makeDirectoriesFrom fuel f parent with
      | (f, .ok _) => settle f
      | (f, .error e) => (f, .error e)
    | _, _ => settle f

/-- Makes a directory and those on the way to it, as far as they are missing. What was made before
a fault stays. -/
def makeDirectories (f : Files) (p : FilePath) : Files × Except FileError Unit :=
  if p.isEmpty then (f, .ok ()) else makeDirectoriesFrom (p.names.length + 1) f p

def remove (f : Files) (p : FilePath) : Except FileError Files := do
  let place ← f.find p
  if f.entry? place = some .directory then .error .isDirectory
  else .ok ⟨f.entries.filter (·.1 != place)⟩

def makeSocket (f : Files) (p : FilePath) : Except FileError Files := do
  check p
  return f.insert (← f.newPlace p.absolute p.names) .socket

/-- A file with some bytes in place of what was there. -/
def write (f : Files) (p : FilePath) (bytes : List UInt8) : Except FileError Files := do
  check p
  match f.find p with
  | .ok place =>
    if f.entry? place = some .directory then .error .isDirectory
    else .ok (f.insert place (.file bytes))
  | .error _ => return f.insert (← f.newPlace p.absolute p.names) (.file bytes)

/-- Puts a file into a directory, which is made if it is missing; nothing is put where that
fails. -/
def put (f : Files) (directory name : String) (bytes : List UInt8) : Files :=
  match f.makeDirectories (.ofString directory) with
  | (f, .ok _) => ((f.write (.ofString (inDirectory directory name)) bytes).toOption).getD f
  | (f, .error _) => f

end Files

end HomeTree
