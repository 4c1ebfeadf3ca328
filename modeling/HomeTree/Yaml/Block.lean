import HomeTree.Yaml.Cursor

namespace HomeTree.Yaml

/-- What becomes of the line breaks at the end of a block: none stays, one does, or all do. -/
inductive Chomping where
  | strip
  | clip
  | keep
deriving DecidableEq, Repr

/-- One line of a block that is not empty. -/
structure Line where
  text : List Char
  /-- Missing at the end of the document. -/
  lineBreak : List Char
  /-- The breaks of the empty lines behind it. -/
  emptyLines : List Char

namespace Line

/-- A line that begins with a blank is not folded. -/
def isIndented (l : Line) : Bool :=
  l.text.head?.any isSpace

/-- What stands between two lines. -/
def between (folded : Bool) (before after : Line) : List Char :=
  if folded ∧ before.lineBreak = ['\n'] ∧ before.isIndented = false ∧ after.isIndented = false then
    if before.emptyLines.isEmpty then [' '] else before.emptyLines
  else before.lineBreak ++ before.emptyLines

/-- The text of lines up to the break of the last one. -/
def joined (folded : Bool) : List Line → List Char
  | [] => []
  | [l] => l.text
  | l :: m :: rest => l.text ++ between folded l m ++ joined folded (m :: rest)

end Line

namespace Cursor

def chomping (c : Cursor) : Chomping × Cursor :=
  match c.rest with
  | '+' :: _ => (.keep, c.next)
  | '-' :: _ => (.strip, c.next)
  | _ => (.clip, c)

/-- By how much a block is indented, 0 where its lines show it. -/
def indentation? (c : Cursor) : Option (Nat × Cursor) :=
  match c.rest with
  | '0' :: _ => none
  | d :: _ => if d.isDigit then some (d.toNat - 48, c.next) else some (0, c)
  | [] => some (0, c)

/-- The head of a block: its two marks stand in any order. -/
def blockHead? (c : Cursor) : Option (Chomping × Nat × Cursor) := do
  let (first, c) := c.chomping
  let (indentation, c) ← c.indentation?
  let (chomping, c) := if first = .clip ∧ indentation ≠ 0 then c.chomping else (first, c)
  let c ← c.endOfLine?
  some (chomping, indentation, c)

end Cursor

/-- The breaks of empty lines up to a line that is not, and the widest column that blanks lead to.
A tab may not indent. -/
def emptyLines? (indent : Option Nat) (widest : Nat) (place : Place) :
    List Char → Option (List Char × Nat × Cursor)
  | [] => some ([], max widest place.column, ⟨place, []⟩)
  | c :: rest =>
    let indents := indent.all (place.column < ·)
    if c = ' ' ∧ indents = true then emptyLines? indent widest (place.past c) rest
    else if c = '\t' ∧ indents = true then none
    else if isBreak c then
      (emptyLines? indent (max widest place.column) (place.past c) rest).map
        fun (breaks, widest, after) => (c :: breaks, widest, after)
    else some ([], max widest place.column, ⟨place, c :: rest⟩)

/-- The lines that begin in a column. -/
def lines? (indent : Nat) : Nat → Cursor → Option (List Line × Cursor)
  | 0, c => some ([], c)
  | fuel + 1, c =>
    if c.place.column = indent ∧ c.rest ≠ [] then do
      let text := c.rest.takeWhile (!isBreak ·)
      let c := c.advance text.length
      let (breaks, _, after) ← emptyLines? (some indent) 0 c.next.place c.next.rest
      let (lines, after) ← lines? indent fuel after
      some (⟨text, c.rest.take 1, breaks⟩ :: lines, after)
    else some ([], c)

/-- The text of a block behind its mark. It lies deeper than the column of the block around it, if
there is one. -/
def block? (folded : Bool) (outer : Option Nat) (c : Cursor) : Option (List Char × Cursor) := do
  let (chomping, indentation, c) ← c.blockHead?
  let given := if indentation = 0 then none else some (outer.getD 0 + indentation)
  let (leading, widest, c) ← emptyLines? given 0 c.place c.rest
  let least := match outer with
    | some column => column + 1
    | none => 1
  let (lines, after) ← lines? (given.getD (max widest least)) c.rest.length c
  let kept (l : Line) := match chomping with
    | .strip => []
    | .clip => l.lineBreak
    | .keep => l.lineBreak ++ l.emptyLines
  match lines.getLast? with
  | some last => some (leading ++ Line.joined folded lines ++ kept last, after)
  | none => some (if chomping = .keep then leading else [], after)

end HomeTree.Yaml
