import HomeTree.Command.Running

/-!
The command line. The daemon lives in this process: once it serves, every line of input is one
more invocation, run to its end before the next is read, and what watching clients are told is
printed as it comes.
-/

namespace HomeTree

/-- The words of a line, between blanks. -/
def wordsOf (line : String) : List String :=
  ((line.toList.splitBy fun a b => isBlank a == isBlank b).filter fun word =>
    !word.any isBlank).map String.ofList

def environment : IO Environment := do
  return ⟨← IO.getEnv "HOMEDB_CONFIG_DIR", ← IO.getEnv "HOME"⟩

/-- The files of a site with the one that an invocation reads. -/
def filesFor (e : Environment) (files : Files) (words : List String) : IO Files := do
  match Invocation.parse? words with
  | none => return files
  | some i =>
    let dir := e.directory i
    try
      let bytes ← IO.FS.readBinFile (inDirectory dir Settings.fileName)
      return files.put dir Settings.fileName bytes.toList
    catch _ => return files

def runWords (site : Site) (words : List String) : IO (Site × CommandOutcome) := do
  let e ← environment
  let files ← filesFor e site.files words
  return { site with files := files }.run e words

/-- Prints how a command has ended and returns its status. -/
def report : CommandOutcome → IO UInt32
  | .printed output => do
    IO.print output
    return 0
  | .failed f => do
    IO.eprintln ("homedb: " ++ f.message)
    return UInt32.ofNat f.status
  | _ => return 0

/-- Prints the pushes that came since the last time. -/
def reportPushes (site : Site) (watchers : List (MemberId × Nat)) :
    IO (List (MemberId × Nat)) :=
  watchers.mapM fun (id, seen) => do
    let pushes := site.told id
    for p in pushes.drop seen do
      IO.println p.toJson.text
    return (id, pushes.length)

partial def serveLines (input : IO.FS.Stream) (site : Site) (watchers : List (MemberId × Nat)) :
    IO UInt32 := do
  let line ← input.getLine
  if line.isEmpty then return 0
  let words := wordsOf line
  let (site, outcome) ← runWords site words
  let _ ← report outcome
  let watchers := match outcome with
    | .watching id => watchers ++ [(id, 0)]
    | _ => watchers
  let watchers ← reportPushes site watchers
  if site.isRunning then serveLines input site watchers else return 0

end HomeTree

def main (words : List String) : IO UInt32 := do
  let (site, outcome) ← HomeTree.runWords (.ofFiles .empty) words
  match outcome with
  | .serving => HomeTree.serveLines (← IO.getStdin) site []
  | outcome => HomeTree.report outcome
