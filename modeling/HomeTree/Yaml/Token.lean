import HomeTree.Yaml.Block
import HomeTree.Yaml.Scalar
import HomeTree.Yaml.Tag

namespace HomeTree.Yaml

inductive Token where
  | directive (directive : Directive)
  | documentStart
  | documentEnd
  | blockSequence
  | blockMapping
  | blockEnd
  | openBracket
  | closeBracket
  | openBrace
  | closeBrace
  | comma
  | dash
  | key
  | value
  | reference (name : String)
  | anchor (name : String)
  | tag (tag : TagWord)
  | scalar (style : Style) (text : String)
deriving DecidableEq, Repr

/-- A place where a key may have begun. -/
structure Candidate where
  place : Place
  /-- How many tokens lie before it. -/
  number : Nat
  /-- Nothing but a key can stand there: it lies in the column of the block. -/
  required : Bool

namespace Candidate

/-- The bytes that a key may have. -/
def limit : Nat := 1024

/-- A key lies on one line with its colon, and is not too long. -/
def isStale (k : Candidate) (p : Place) : Bool :=
  k.place.line < p.line || k.place.offset + limit < p.offset

/-- Gives a candidate up; one that is required cannot be. -/
def drop? : Option Candidate → Option (Option Candidate)
  | none => some none
  | some k => if k.required then none else some none

def expire? (p : Place) (k : Option Candidate) : Option (Option Candidate) :=
  if k.any (·.isStale p) then drop? k else some k

end Candidate

/-- A text read up to a place. -/
structure Layout where
  cursor : Cursor
  /-- The columns of the open blocks, the innermost first. -/
  columns : List Nat
  candidate : Option Candidate
  /-- The candidates around the open brackets, the innermost first. -/
  outer : List (Option Candidate)
  keyAllowed : Bool
  tokens : Array Token

namespace Layout

def start (cs : List Char) : Layout :=
  ⟨⟨.start, cs⟩, [], none, [], true, #[]⟩

/-- Indentation has no meaning inside brackets. -/
def inFlow (l : Layout) : Bool :=
  !l.outer.isEmpty

def column (l : Layout) : Nat :=
  l.cursor.place.column

/-- The first column that is inside the innermost block. -/
def least (l : Layout) : Nat :=
  match l.columns with
  | [] => 0
  | column :: _ => column + 1

/-- Passes over blanks, comments and line breaks. A tab may not indent what can be a key. A byte
order mark may begin a line. -/
def skipGaps (inFlow keyAllowed comment : Bool) (place : Place) : List Char → Bool × Cursor
  | [] => (keyAllowed, ⟨place, []⟩)
  | c :: rest =>
    if isBreak c then skipGaps inFlow (keyAllowed || !inFlow) false (place.past c) rest
    else if comment ∨ c = '#' then skipGaps inFlow keyAllowed true (place.past c) rest
    else if c = ' ' ∨ (c = '\t' ∧ (inFlow ∨ keyAllowed = false))
        ∨ (c = '\ufeff' ∧ place.column = 0) then
      skipGaps inFlow keyAllowed false (place.past c) rest
    else (keyAllowed, ⟨place, c :: rest⟩)

def toWord (l : Layout) : Layout :=
  let (keyAllowed, cursor) := skipGaps l.inFlow l.keyAllowed false l.cursor.place l.cursor.rest
  { l with cursor := cursor, keyAllowed := keyAllowed }

/-- Gives up the candidates that the place has left behind. -/
def expire? (l : Layout) : Option Layout := do
  let candidate ← Candidate.expire? l.cursor.place l.candidate
  let outer ← l.outer.mapM (Candidate.expire? l.cursor.place)
  return { l with candidate := candidate, outer := outer }

def dropCandidate? (l : Layout) : Option Layout :=
  (Candidate.drop? l.candidate).map fun k => { l with candidate := k }

/-- Marks the place as one where a key may begin. -/
def saveCandidate? (l : Layout) : Option Layout :=
  if l.keyAllowed then do
    let _ ← Candidate.drop? l.candidate
    let required := !l.inFlow && l.columns.head? == some l.column
    return { l with candidate := some ⟨l.cursor.place, l.tokens.size, required⟩ }
  else some l

/-- Adds a token that has been read up to a place. -/
def push (l : Layout) (t : Token) (cursor : Cursor) (keyAllowed : Bool) : Layout :=
  { l with tokens := l.tokens.push t, cursor := cursor, keyAllowed := keyAllowed }

/-- Opens a block in a column that lies deeper than the blocks around it; its token stands at a
number. -/
def openBlock (l : Layout) (column : Nat) (t : Token) (number : Nat) : Layout :=
  if l.inFlow = false ∧ l.least ≤ column then
    { l with columns := column :: l.columns, tokens := l.tokens.insertIdxIfInBounds number t }
  else l

/-- Closes the blocks whose columns are among the given ones. -/
def closeBlocks (l : Layout) (p : Nat → Bool) : Layout :=
  if l.inFlow then l
  else
    let closed := (l.columns.takeWhile p).map fun _ => Token.blockEnd
    { l with columns := l.columns.dropWhile p, tokens := l.tokens ++ closed }

/-- Closes the blocks that the place has left. -/
def closeLeft (l : Layout) : Layout :=
  l.closeBlocks (l.column < ·)

def closeAll (l : Layout) : Layout :=
  l.closeBlocks fun _ => true

def directive? (l : Layout) : Option Layout := do
  let l ← l.closeAll.dropCandidate?
  let (directive, after) ← l.cursor.directive?
  return l.push (.directive directive) after false

def documentMark? (l : Layout) (t : Token) : Option Layout := do
  let l ← l.closeAll.dropCandidate?
  return l.push t (l.cursor.advance 3) false

def opening? (l : Layout) (t : Token) : Option Layout := do
  let l ← l.saveCandidate?
  return { l with candidate := none, outer := l.candidate :: l.outer }.push t l.cursor.next true

def closing? (l : Layout) (t : Token) : Option Layout := do
  let l ← l.dropCandidate?
  let l := match l.outer with
    | [] => l
    | candidate :: outer => { l with candidate := candidate, outer := outer }
  return l.push t l.cursor.next false

def comma? (l : Layout) : Option Layout := do
  let l ← l.dropCandidate?
  return l.push .comma l.cursor.next true

/-- Outside brackets items, and keys behind a question mark, begin where keys may. -/
def opensEntry? (l : Layout) (t : Token) : Option Layout :=
  if l.inFlow then some l
  else if l.keyAllowed then some (l.openBlock l.column t l.tokens.size)
  else none

def dash? (l : Layout) : Option Layout := do
  let l ← (← l.opensEntry? .blockSequence).dropCandidate?
  return l.push .dash l.cursor.next true

def question? (l : Layout) : Option Layout := do
  let l ← (← l.opensEntry? .blockMapping).dropCandidate?
  return l.push .key l.cursor.next (!l.inFlow)

/-- The candidate before a colon is a key. Without one the colon belongs to a key behind a
question mark. -/
def colon? (l : Layout) : Option Layout :=
  match l.candidate with
  | some k =>
    let l := { l with candidate := none, tokens := l.tokens.insertIdxIfInBounds k.number .key }
    let l := l.openBlock k.place.column .blockMapping k.number
    some (l.push .value l.cursor.next false)
  | none => do
    let l ← l.opensEntry? .blockMapping
    return l.push .value l.cursor.next (!l.inFlow)

/-- A node's name, or a reference to one. -/
def name? (l : Layout) (t : String → Token) : Option Layout := do
  let l ← l.saveCandidate?
  let (name, after) ← l.cursor.name?
  return l.push (t name) after false

def tag? (l : Layout) : Option Layout := do
  let l ← l.saveCandidate?
  let (tag, after) ← l.cursor.tag? l.inFlow
  return l.push (.tag tag) after false

def pushText (l : Layout) (style : Style) (text : List Char) (after : Cursor)
    (keyAllowed : Bool) : Layout :=
  l.push (.scalar style (String.ofList text)) after keyAllowed

/-- A key may follow a block. -/
def block? (l : Layout) (style : Style) : Option Layout := do
  let l ← l.dropCandidate?
  let (text, after) ← Yaml.block? (style = .folded) l.columns.head? l.cursor.next
  return l.pushText style text after true

def quoted? (l : Layout) (style : Style)
    (read? : Gap → Place → List Char → Option (List Char × Cursor)) : Option Layout := do
  let l ← l.saveCandidate?
  let (text, after) ← read? .none l.cursor.next.place l.cursor.next.rest
  return l.pushText style text after false

/-- A key may follow a plain scalar on a line of its own. -/
def plain? (l : Layout) : Option Layout :=
  if beginsPlain l.inFlow l.cursor.rest then do
    let l ← l.saveCandidate?
    let (text, broken, after) ←
      Yaml.plain? l.inFlow l.least .none l.cursor.place l.cursor.rest
    return l.pushText .plain text after broken
  else none

/-- Reads the token at a word. -/
def token? (l : Layout) : Option Layout :=
  let atMark (rest : List Char) := l.inFlow || endsWord rest
  if l.column = 0 ∧ isDocumentMark l.cursor.rest then
    l.documentMark? (if l.cursor.rest.head? = some '-' then .documentStart else .documentEnd)
  else
    match l.cursor.rest with
    | [] => none
    | c :: rest =>
      if c = '%' ∧ l.column = 0 then l.directive?
      else if c = '[' then l.opening? .openBracket
      else if c = '\x7b' then l.opening? .openBrace
      else if c = ']' then l.closing? .closeBracket
      else if c = '\x7d' then l.closing? .closeBrace
      else if c = ',' then l.comma?
      else if c = '-' ∧ endsWord rest then l.dash?
      else if c = '?' ∧ atMark rest then l.question?
      else if c = ':' ∧ atMark rest then l.colon?
      else if c = '*' then l.name? .reference
      else if c = '&' then l.name? .anchor
      else if c = '!' then l.tag?
      else if c = '|' ∧ l.inFlow = false then l.block? .literal
      else if c = '>' ∧ l.inFlow = false then l.block? .folded
      else if c = '\'' then l.quoted? .single single?
      else if c = '"' then l.quoted? .double double?
      else l.plain?

/-- All tokens; every round reads one. -/
def tokens? : Nat → Layout → Option (List Token)
  | 0, _ => none
  | fuel + 1, l => do
    let l := (← l.toWord.expire?).closeLeft
    if l.cursor.rest.isEmpty then return (← l.closeAll.dropCandidate?).tokens.toList
    else tokens? fuel (← l.token?)

end Layout

/-- The tokens of a text. -/
def Token.ofChars? (cs : List Char) : Option (List Token) :=
  (Layout.start cs).tokens? (cs.length + 1)

end HomeTree.Yaml
