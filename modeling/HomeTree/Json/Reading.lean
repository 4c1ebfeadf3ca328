import HomeTree.Json.Basic
import HomeTree.Json.Source

namespace HomeTree.Json

/-- Containers inside containers, the outermost counted, that a text may have. -/
def depthLimit : Nat := 127

/-- The characters of a text; halves must come in pairs, high before low. -/
def readText? : List TextUnit → Option (List Char)
  | [] => some []
  | .char c :: rest => (readText? rest).map (c :: ·)
  | .half high :: .half low :: rest =>
    if high < 0xDC00 ∧ 0xDC00 ≤ low then
      let c := Char.ofNat (0x10000 + (high - 0xD800) * 0x400 + (low - 0xDC00))
      (readText? rest).map (c :: ·)
    else none
  | _ :: _ => none

def readString? (units : List TextUnit) : Option String :=
  (readText? units).map String.ofList

/-- An integral numeral is exact as far as a word reaches, on the negative side as far as a signed
one; minus zero and all the others are binary64. -/
def readNumber? (n : Decimal.Numeral) : Option Number :=
  let value := Decimal.ofDigits n.whole
  if n.isInteger ∧ n.negative = false ∧ value ≤ Decimal.wordMax then
    some (.integer value)
  else if n.isInteger ∧ n.negative ∧ 0 < value ∧ value ≤ 0x8000000000000000 then
    some (.integer (-value))
  else n.toDouble?.map .double

namespace Source

mutual

def read? (depth : Nat) : Source → Option Json
  | .null => some .null
  | .bool b => some (.bool b)
  | .number n => (readNumber? n).map .number
  | .text units => (readString? units).map .string
  | .array items =>
    match depth with
    | 0 => none
    | depth + 1 => (readItems? depth items).map .array
  | .object members =>
    match depth with
    | 0 => none
    | depth + 1 => (readMembers? depth members).map .object

def readItems? (depth : Nat) : List Source → Option (List Json)
  | [] => some []
  | item :: rest => do
    let item ← read? depth item
    let rest ← readItems? depth rest
    some (item :: rest)

def readMembers? (depth : Nat) : List (List TextUnit × Source) → Option (List (String × Json))
  | [] => some []
  | (key, value) :: rest => do
    let key ← readString? key
    let value ← read? depth value
    let rest ← readMembers? depth rest
    some ((key, value) :: rest)

end

/-- Reads the named members only. The keys of the others must still be text, their values are
skipped. -/
def readNamed? (names : List String) (depth : Nat) :
    List (List TextUnit × Source) → Option (List (String × Json))
  | [] => some []
  | (key, value) :: rest => do
    let key ← readString? key
    if names.contains key then
      let value ← read? depth value
      let rest ← readNamed? names depth rest
      some ((key, value) :: rest)
    else readNamed? names depth rest

/-- A record of which only the named fields are read. -/
def readRecord? (names : List String) : Source → Option Json
  | .object members => (readNamed? names (depthLimit - 1) members).map .object
  | source => source.read? depthLimit

end Source

def parse? (bytes : List UInt8) : Option Json := do
  let source ← Source.parse? bytes
  source.read? depthLimit

end HomeTree.Json
