namespace HomeTree.Yaml

/-- Line breaks; the further ones are made newlines before a document is read. -/
def isBreak (c : Char) : Bool :=
  c == '\n' || c == '\u2028' || c == '\u2029'

def isSpace (c : Char) : Bool :=
  c == ' ' || c == '\t'

def isGap (c : Char) : Bool :=
  isSpace c || isBreak c

/-- Whether a text is at its end, or a blank or line break follows. -/
def endsWord : List Char → Bool
  | [] => true
  | c :: _ => isGap c

/-- The marks between documents, where they stand at the beginning of a line. -/
def isDocumentMark : List Char → Bool
  | '-' :: '-' :: '-' :: rest => endsWord rest
  | '.' :: '.' :: '.' :: rest => endsWord rest
  | _ => false

structure Place where
  /-- The bytes in front of it. -/
  offset : Nat
  line : Nat
  column : Nat
deriving DecidableEq, Repr

namespace Place

def start : Place := ⟨0, 0, 0⟩

def past (p : Place) (c : Char) : Place :=
  if isBreak c then ⟨p.offset + c.utf8Size, p.line + 1, 0⟩
  else ⟨p.offset + c.utf8Size, p.line, p.column + 1⟩

def pastAll (p : Place) (cs : List Char) : Place :=
  cs.foldl past p

end Place

/-- A place and the text behind it. -/
structure Cursor where
  place : Place
  rest : List Char

namespace Cursor

def next (c : Cursor) : Cursor :=
  match c.rest with
  | [] => c
  | head :: rest => ⟨c.place.past head, rest⟩

def advance : Nat → Cursor → Cursor
  | 0, c => c
  | n + 1, c => advance n c.next

def skip (p : Char → Bool) (c : Cursor) : Cursor :=
  c.advance (c.rest.takeWhile p).length

/-- Behind the line, which may hold no more than blanks and a comment. -/
def endOfLine? (c : Cursor) : Option Cursor :=
  let c := c.skip isSpace
  let c := if c.rest.head? = some '#' then c.skip (!isBreak ·) else c
  match c.rest with
  | [] => some c
  | head :: _ => if isBreak head then some c.next else none

end Cursor

end HomeTree.Yaml
