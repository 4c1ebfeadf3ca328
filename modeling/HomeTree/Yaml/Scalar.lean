import HomeTree.Yaml.Basic
import HomeTree.Yaml.Cursor

namespace HomeTree.Yaml

/-- What lies between two words of a scalar, the latest first. -/
structure Gap where
  blanks : List Char
  breaks : List Char
  /-- Whether it begins behind a line break taken back by a backslash. -/
  joined : Bool

namespace Gap

def none : Gap := ⟨[], [], false⟩

def joining : Gap := ⟨[], [], true⟩

def add (g : Gap) (c : Char) : Gap :=
  if isBreak c then { g with breaks := c :: g.breaks } else { g with blanks := c :: g.blanks }

def isBroken (g : Gap) : Bool :=
  !g.breaks.isEmpty

def isEmpty (g : Gap) : Bool :=
  g.blanks.isEmpty && g.breaks.isEmpty

/-- Blanks around line breaks are dropped. Only newlines are folded. -/
def chars (g : Gap) : List Char :=
  let breaks := g.breaks.reverse
  if g.joined then breaks
  else
    match breaks with
    | [] => g.blanks.reverse
    | '\n' :: [] => [' ']
    | '\n' :: more => more
    | breaks => breaks

end Gap

/-- Ends of a plain scalar inside brackets. -/
def isBracketMark (c : Char) : Bool :=
  c == ',' || c == '[' || c == ']' || c == '\x7b' || c == '\x7d'

/-- Whether a plain scalar ends behind a gap, before a character that is none. -/
def endsPlain (inFlow : Bool) (least : Nat) (gap : Gap) (place : Place) : List Char → Bool
  | [] => true
  | c :: rest =>
    (gap.isBroken && !inFlow && place.column < least)
      || (place.column == 0 && isDocumentMark (c :: rest))
      || (!gap.isEmpty && c == '#')
      || (c == ':' && endsWord rest)
      || (inFlow && isBracketMark c)

/-- A colon before a bracket, a comma or a question mark is refused inside brackets. -/
def strayColon (inFlow : Bool) : List Char → Bool
  | ':' :: c :: _ => inFlow && (isBracketMark c || c == '?')
  | _ => false

/-- The text of a plain scalar, and whether a line break lies between it and the place behind it.
Its further lines are indented by `least` columns or more. -/
def plain? (inFlow : Bool) (least : Nat) (gap : Gap) (place : Place) :
    List Char → Option (List Char × Bool × Cursor)
  | [] => some ([], gap.isBroken, ⟨place, []⟩)
  | c :: rest =>
    if isGap c then
      if gap.isBroken ∧ c = '\t' ∧ place.column < least then none
      else plain? inFlow least (gap.add c) (place.past c) rest
    else if endsPlain inFlow least gap place (c :: rest) then
      some ([], gap.isBroken, ⟨place, c :: rest⟩)
    else if strayColon inFlow (c :: rest) then none
    else
      (plain? inFlow least .none (place.past c) rest).map fun (text, after) =>
        (gap.chars ++ c :: text, after)

/-- Characters that begin something else than a plain scalar. -/
def isIndicator (c : Char) : Bool :=
  isBracketMark c || c == '-' || c == '?' || c == ':' || c == '#' || c == '&' || c == '*'
    || c == '!' || c == '|' || c == '>' || c == '\'' || c == '"' || c == '%' || c == '@'
    || c == '\x60'

/-- A dash, and outside brackets a question mark or a colon, may begin a plain scalar if a word
follows. -/
def beginsPlain (inFlow : Bool) : List Char → Bool
  | [] => false
  | c :: rest =>
    if isGap c then false
    else if c = '-' then !endsWord rest
    else if c = '?' ∨ c = ':' then !inFlow && !endsWord rest
    else !isIndicator c

/-- The text of a scalar in single quotes, behind the first of them and a gap; a quote is written
twice. -/
def single? (gap : Gap) (place : Place) : List Char → Option (List Char × Cursor)
  | [] => none
  | '\'' :: '\'' :: rest =>
    (single? .none (place.pastAll ['\'', '\'']) rest).map fun (text, after) =>
      (gap.chars ++ '\'' :: text, after)
  | '\'' :: rest => some (gap.chars, ⟨place.past '\'', rest⟩)
  | c :: rest =>
    if place.column = 0 ∧ isDocumentMark (c :: rest) then none
    else if isGap c then single? (gap.add c) (place.past c) rest
    else
      (single? .none (place.past c) rest).map fun (text, after) => (gap.chars ++ c :: text, after)

/-- The character of an escape of one letter. -/
def escape? (c : Char) : Option Char :=
  [('0', '\x00'), ('a', '\x07'), ('b', '\x08'), ('t', '\t'), ('\t', '\t'), ('n', '\n'),
    ('v', '\x0b'), ('f', '\x0c'), ('r', '\r'), ('e', '\x1b'), (' ', ' '), ('"', '"'), ('/', '/'),
    ('\\', '\\'), ('N', '\u0085'), ('_', '\u00a0'), ('L', '\u2028'), ('P', '\u2029')].lookup c

/-- The character with a code in hexadecimal digits. -/
def coded? (digits : List Char) : Option Char := do
  let n ← Numeral.value? 16 digits
  if n < 0xD800 ∨ (0xDFFF < n ∧ n < 0x110000) then some (Char.ofNat n) else none

/-- The text of a scalar in double quotes, behind the first of them and a gap. -/
def double? (gap : Gap) (place : Place) : List Char → Option (List Char × Cursor)
  | [] => none
  | '"' :: rest => some (gap.chars, ⟨place.past '"', rest⟩)
  | '\\' :: 'x' :: a :: b :: rest => do
    let c ← coded? [a, b]
    let (text, after) ← double? .none (place.pastAll ['\\', 'x', a, b]) rest
    some (gap.chars ++ c :: text, after)
  | '\\' :: 'u' :: a :: b :: c :: d :: rest => do
    let e ← coded? [a, b, c, d]
    let (text, after) ← double? .none (place.pastAll ['\\', 'u', a, b, c, d]) rest
    some (gap.chars ++ e :: text, after)
  | '\\' :: 'U' :: a :: b :: c :: d :: e :: f :: g :: h :: rest => do
    let i ← coded? [a, b, c, d, e, f, g, h]
    let (text, after) ← double? .none (place.pastAll ['\\', 'U', a, b, c, d, e, f, g, h]) rest
    some (gap.chars ++ i :: text, after)
  | '\\' :: c :: rest =>
    if isBreak c then
      (double? .joining (place.pastAll ['\\', c]) rest).map fun (text, after) =>
        (gap.chars ++ text, after)
    else do
      let e ← escape? c
      let (text, after) ← double? .none (place.pastAll ['\\', c]) rest
      some (gap.chars ++ e :: text, after)
  | c :: rest =>
    if place.column = 0 ∧ isDocumentMark (c :: rest) then none
    else if isGap c then double? (gap.add c) (place.past c) rest
    else
      (double? .none (place.past c) rest).map fun (text, after) => (gap.chars ++ c :: text, after)

end HomeTree.Yaml
