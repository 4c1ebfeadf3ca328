import HomeTree.Text.Numeral
import HomeTree.Text.Parts

namespace HomeTree

inductive Address where
  /-- Four octets as one number. -/
  | short (value : Nat)
  /-- Eight groups of 16 bits. -/
  | long (groups : List Nat)
deriving DecidableEq, Repr

namespace Address

/-- A part of a short address: hexadecimal behind a mark, octal behind a zero, or decimal. -/
def part? : List Char → Option Nat
  | '0' :: 'x' :: rest => Numeral.value? 16 rest
  | '0' :: 'X' :: rest => Numeral.value? 16 rest
  | '0' :: rest => Numeral.value? 8 ('0' :: rest)
  | cs => Numeral.value? 10 cs

/-- The last of some parts takes the octets that the others leave. -/
def joinParts? (leading : List Nat) (last : Nat) : Option Nat :=
  let room := Nat.pow 256 (4 - leading.length)
  if leading.length ≤ 3 ∧ leading.all (· < 256) ∧ last < room then
    some (leading.foldl (fun n octet => n * 256 + octet) 0 * room + last)
  else none

def short? (cs : List Char) : Option Address := do
  let values ← (parts '.' cs).mapM part?
  let value ← joinParts? values.dropLast (← values.getLast?)
  return .short value

/-- An octet in decimal digits, without zeros in front. -/
def octet? (cs : List Char) : Option Nat := do
  let n ← Numeral.upTo? 255 10 cs
  if (cs.length = 1 ∨ cs.head? ≠ some '0') then some n else none

/-- The two groups that four octets between dots stand for. -/
def octetGroups? (cs : List Char) : Option (List Nat) :=
  match (parts '.' cs).mapM octet? with
  | some [a, b, c, d] => some [a * 256 + b, c * 256 + d]
  | _ => none

def group? (cs : List Char) : Option Nat :=
  if cs.length ≤ 4 then Numeral.value? 16 cs else none

/-- Groups between single colons. Octets can take the place of the last two. -/
def groups? (octetsLast : Bool) (cs : List Char) : Option (List Nat) :=
  if cs.isEmpty then some []
  else do
    let words := parts ':' cs
    let leading ← words.dropLast.mapM group?
    let last ← words.getLast?
    let closing ← if octetsLast ∧ last.contains '.' then octetGroups? last
      else (group? last).map ([·])
    return leading ++ closing

/-- What stands before two colons and behind them. -/
def aroundColons? : List Char → Option (List Char × List Char)
  | ':' :: ':' :: rest => some ([], rest)
  | c :: rest => (aroundColons? rest).map fun (before, behind) => (c :: before, behind)
  | [] => none

def long? (cs : List Char) : Option Address :=
  match aroundColons? cs with
  | none => do
    let groups ← groups? true cs
    if groups.length = 8 then some (.long groups) else none
  | some (before, behind) => do
    let before ← groups? false before
    let behind ← groups? true behind
    let known := before.length + behind.length
    if known < 8 then some (.long (before ++ List.replicate (8 - known) 0 ++ behind)) else none

/-- The number of an interface behind a percent sign, which may be missing. -/
def zoned? (cs : List Char) : Option Address :=
  match cs.dropWhile (· ≠ '%') with
  | [] => long? cs
  | _ :: zone => do
    let _ ← Numeral.upTo? 0xffffffff 10 zone
    long? (cs.takeWhile (· ≠ '%'))

def octetsText (value : Nat) : String :=
  ".".intercalate ([value / 0x1000000, value / 0x10000 % 256, value / 256 % 256, value % 256].map
    toString)

/-- The text of an address where a service can listen without a network: all short addresses, and
of the long ones that of no machine and those that stand for a short one. -/
def listeningText? : Address → Option String
  | .short value => some (octetsText value)
  | .long [0, 0, 0, 0, 0, 0xffff, a, b] => some ("[::ffff:" ++ octetsText (a * 65536 + b) ++ "]")
  | .long groups => if groups.all (· = 0) then some "[::]" else none

/-- This machine. -/
def loopback : Address := .short 0x7f000001

end Address

end HomeTree
