import HomeTree.Yaml.Basic
import HomeTree.Yaml.Cursor

namespace HomeTree.Yaml

/-- A tag as it is written: a handle, and octets behind what it stands for. -/
structure TagWord where
  /-- Empty for a tag in full. -/
  handle : List Char
  suffix : List UInt8
deriving DecidableEq, Repr

inductive Directive where
  | version (major minor : Nat)
  /-- What the tags with a handle begin with. -/
  | tag (handle : List Char) (beginning : List UInt8)
deriving DecidableEq, Repr

def isNameChar (c : Char) : Bool :=
  c.isAlphanum || c == '_' || c == '-'

/-- Characters of a tag; commas and square brackets are those of a tag in full only. -/
def isTagChar (full : Bool) (c : Char) : Bool :=
  isNameChar c || [';', '/', '?', ':', '@', '&', '=', '+', '$', '.', '!', '~', '*', '\'', '(',
    ')'].contains c || (full && (c == ',' || c == '[' || c == ']'))

def octet? (a b : Char) : Option Nat := do
  return (← Numeral.digit? 16 a) * 16 + (← Numeral.digit? 16 b)

/-- The octets that follow a first one in the encoding of a character. -/
def followers? (n : Nat) : Option Nat :=
  if n < 0x80 then some 0
  else if 0xC0 ≤ n ∧ n < 0xE0 then some 1
  else if 0xE0 ≤ n ∧ n < 0xF0 then some 2
  else if 0xF0 ≤ n ∧ n < 0xF8 then some 3
  else none

/-- How many octets are still to come behind one, where so many were. -/
def stillDue? (due n : Nat) : Option Nat :=
  match due with
  | 0 => followers? n
  | due + 1 => if 0x80 ≤ n ∧ n < 0xC0 then some due else none

/-- The octets of a tag's characters, some of which are written behind percent signs. -/
def octets? (full : Bool) (due : Nat) (place : Place) : List Char → Option (List UInt8 × Cursor)
  | [] => if due = 0 then some ([], ⟨place, []⟩) else none
  | '%' :: a :: b :: rest => do
    let n ← octet? a b
    let due ← stillDue? due n
    let (octets, after) ← octets? full due (place.pastAll ['%', a, b]) rest
    some (UInt8.ofNat n :: octets, after)
  | c :: rest =>
    if due ≠ 0 ∨ c = '%' then none
    else if isTagChar full c then
      (octets? full 0 (place.past c) rest).map fun (octets, after) =>
        (UInt8.ofNat c.toNat :: octets, after)
    else some ([], ⟨place, c :: rest⟩)

/-- The octet 0 ends a tag. -/
def tagOctets (octets : List UInt8) : List UInt8 :=
  octets.takeWhile (· ≠ 0)

namespace Cursor

/-- The octets of a tag or of what begins one; there is at least one. -/
def tagOctets? (full : Bool) (c : Cursor) : Option (List UInt8 × Cursor) := do
  let (octets, after) ← octets? full 0 c.place c.rest
  if octets.isEmpty then none else some (tagOctets octets, after)

/-- A tag between angle brackets, behind the first of them. -/
def fullTag? (c : Cursor) : Option (TagWord × Cursor) := do
  let (octets, after) ← c.tagOctets? true
  if after.rest.head? = some '>' then some (⟨[], octets⟩, after.next) else none

/-- A tag with a handle, which ends with the second exclamation mark or is the first alone. The
first alone may be all of the tag. -/
def shortTag? (c : Cursor) : Option (TagWord × Cursor) := do
  let name := (c.rest.drop 1).takeWhile isNameChar
  let behind := c.advance (name.length + 1)
  if behind.rest.head? = some '!' then
    let (octets, after) ← behind.next.tagOctets? false
    some (⟨'!' :: name ++ ['!'], octets⟩, after)
  else
    let (octets, after) ← octets? false 0 c.next.place c.next.rest
    let suffix := tagOctets octets
    some (if suffix.isEmpty then ⟨[], tagOf "!"⟩ else ⟨['!'], suffix⟩, after)

/-- The tag at a place, with an end behind it. -/
def tag? (inFlow : Bool) (c : Cursor) : Option (TagWord × Cursor) := do
  let (tag, after) ← match c.rest with
    | _ :: '<' :: _ => (c.advance 2).fullTag?
    | _ => c.shortTag?
  if endsWord after.rest ∨ (inFlow ∧ after.rest.head? = some ',') then some (tag, after) else none

/-- Whether a name can end before a text. -/
def endsName : List Char → Bool
  | [] => true
  | head :: _ => isGap head || ['?', ':', ',', ']', '\x7d', '%', '@', '\x60'].contains head

/-- The name of a node, behind the mark at a place. -/
def name? (c : Cursor) : Option (String × Cursor) :=
  let name := (c.rest.drop 1).takeWhile isNameChar
  let after := c.advance (name.length + 1)
  if name ≠ [] ∧ endsName after.rest then some (String.ofList name, after) else none

/-- A number of a version, of nine digits at most. -/
def versionNumber? (c : Cursor) : Option (Nat × Cursor) :=
  let digits := c.rest.takeWhile Char.isDigit
  if digits ≠ [] ∧ digits.length ≤ 9 then
    (Numeral.value? 10 digits).map fun n => (n, c.advance digits.length)
  else none

def version? (c : Cursor) : Option (Directive × Cursor) := do
  let (major, c) ← c.versionNumber?
  if c.rest.head? = some '.' then
    let (minor, c) ← c.next.versionNumber?
    some (.version major minor, c)
  else none

/-- A handle is an exclamation mark alone, or a name between two of them. -/
def handle? (c : Cursor) : Option (List Char × Cursor) :=
  let name := (c.rest.drop 1).takeWhile isNameChar
  let behind := c.advance (name.length + 1)
  if c.rest.head? ≠ some '!' then none
  else if behind.rest.head? = some '!' then some ('!' :: name ++ ['!'], behind.next)
  else if name.isEmpty then some (['!'], behind)
  else none

def tagDirective? (c : Cursor) : Option (Directive × Cursor) := do
  let (handle, c) ← c.handle?
  if c.rest.head?.any isSpace then
    let (beginning, c) ← (c.skip isSpace).tagOctets? true
    if endsWord c.rest then some (.tag handle beginning, c) else none
  else none

/-- The directive at a place, and the place behind its line. -/
def directive? (c : Cursor) : Option (Directive × Cursor) := do
  let name := (c.rest.drop 1).takeWhile isNameChar
  let c := c.advance (name.length + 1)
  let (directive, c) ←
    if endsWord c.rest = false then none
    else if name = "YAML".toList then (c.skip isSpace).version?
    else if name = "TAG".toList then (c.skip isSpace).tagDirective?
    else none
  some (directive, ← c.endOfLine?)

end Cursor

end HomeTree.Yaml
