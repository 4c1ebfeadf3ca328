import HomeTree.Text.Utf8
import HomeTree.Decimal.Reading

/-!
The syntax of a JSON text, taken from bytes. A source tree is well formed but not yet read: its
numerals have no range, its texts may hold bytes that are no UTF-8 and halves of surrogate pairs,
and it may be nested to any depth. What is skipped is checked this far and no further.
-/

namespace HomeTree.Json

/-- One unit of a text as written. -/
inductive TextUnit where
  | char (c : Char)
  /-- A surrogate written as an escape; two that fit make one character. -/
  | half (code : Nat)
  /-- A byte that begins no character. -/
  | stray (byte : UInt8)
deriving DecidableEq, Repr

inductive Source where
  | null
  | bool (value : Bool)
  | number (value : Decimal.Numeral)
  | text (units : List TextUnit)
  | array (items : List Source)
  | object (members : List (List TextUnit × Source))
deriving Repr, Inhabited

namespace Source

def isSpace (b : UInt8) : Bool :=
  b == 0x20 || b == 0x0A || b == 0x0D || b == 0x09

def skipSpace (bytes : List UInt8) : List UInt8 :=
  bytes.dropWhile isSpace

def isDigit (b : UInt8) : Bool :=
  0x30 ≤ b && b ≤ 0x39

def hexValue? (b : UInt8) : Option Nat :=
  if isDigit b then some (b.toNat - 0x30)
  else if 0x61 ≤ b && b ≤ 0x66 then some (b.toNat - 0x57)
  else if 0x41 ≤ b && b ≤ 0x46 then some (b.toNat - 0x37)
  else none

/-- The unit a 16-bit code stands for. -/
def ofCode (code : Nat) : TextUnit :=
  if 0xD800 ≤ code ∧ code ≤ 0xDFFF then .half code else .char (Char.ofNat code)

/-- Four hexadecimal digits. -/
def code? (a b c d : UInt8) : Option Nat := do
  let a ← hexValue? a
  let b ← hexValue? b
  let c ← hexValue? c
  let d ← hexValue? d
  some (((a * 16 + b) * 16 + c) * 16 + d)

/-- The character of an escape of one letter. -/
def shortEscape? (e : UInt8) : Option Char :=
  if e = 0x22 then some '"'
  else if e = 0x5C then some '\\'
  else if e = 0x2F then some '/'
  else if e = 0x62 then some '\x08'
  else if e = 0x66 then some '\x0c'
  else if e = 0x6E then some '\n'
  else if e = 0x72 then some '\r'
  else if e = 0x74 then some '\t'
  else none

/-- One escape, behind its backslash. -/
def escape? : List UInt8 → Option (TextUnit × List UInt8)
  | 0x75 :: a :: b :: c :: d :: rest => (code? a b c d).map fun code => (ofCode code, rest)
  | e :: rest => (shortEscape? e).map fun c => (.char c, rest)
  | [] => none

theorem length_lt_of_escape? {bytes rest : List UInt8} {u : TextUnit}
    (h : escape? bytes = some (u, rest)) : rest.length < bytes.length := by
  unfold escape? at h
  split at h
  · obtain ⟨code, -, h⟩ := Option.map_eq_some_iff.mp h
    cases h
    simp only [List.length_cons]
    omega
  · obtain ⟨c, -, h⟩ := Option.map_eq_some_iff.mp h
    cases h
    simp
  · simp at h

/-- The units of a text, behind its opening quote, and what follows its closing quote. -/
def scanText (bytes : List UInt8) : Option (List TextUnit × List UInt8) :=
  match bytes with
  | [] => none
  | b :: rest =>
    if b = 0x22 then some ([], rest)
    else if b = 0x5C then
      match h : escape? rest with
      | none => none
      | some (u, after) =>
        have := length_lt_of_escape? h
        (scanText after).map fun (us, left) => (u :: us, left)
    else if b < 0x20 then none
    else
      match h : Utf8.decodeChar? (b :: rest) with
      | none => (scanText rest).map fun (us, left) => (.stray b :: us, left)
      | some (c, after) =>
        have := Utf8.length_lt_of_decodeChar? h
        (scanText after).map fun (us, left) => (.char c :: us, left)
termination_by bytes.length
decreasing_by all_goals simp_all <;> omega

def digitValues (bytes : List UInt8) : List Nat :=
  bytes.map fun b => b.toNat - 0x30

/-- A run of digits, at least one. -/
def digits? (bytes : List UInt8) : Option (List Nat × List UInt8) :=
  let run := bytes.takeWhile isDigit
  if run.isEmpty then none else some (digitValues run, bytes.dropWhile isDigit)

/-- The digits before the point: a zero stands alone. -/
def whole? (bytes : List UInt8) : Option (List Nat × List UInt8) := do
  let (ds, rest) ← digits? bytes
  match ds with
  | 0 :: _ :: _ => none
  | _ => some (ds, rest)

def fraction? : List UInt8 → Option (List Nat × List UInt8)
  | 0x2E :: rest => digits? rest
  | bytes => some ([], bytes)

def exponent? : List UInt8 → Option (Option Int × List UInt8)
  | [] => some (none, [])
  | b :: rest =>
    if b = 0x65 || b = 0x45 then do
      let (negative, rest) := match rest with
        | 0x2D :: rest => (true, rest)
        | 0x2B :: rest => (false, rest)
        | rest => (false, rest)
      let (ds, rest) ← digits? rest
      let n : Int := Decimal.ofDigits ds
      some (some (if negative then -n else n), rest)
    else some (none, b :: rest)

def numeral? (bytes : List UInt8) : Option (Decimal.Numeral × List UInt8) := do
  let (negative, bytes) := match bytes with
    | 0x2D :: rest => (true, rest)
    | bytes => (false, bytes)
  let (whole, bytes) ← whole? bytes
  let (fraction, bytes) ← fraction? bytes
  let (exponent, bytes) ← exponent? bytes
  some (⟨negative, whole, fraction, exponent⟩, bytes)

/-- What is left behind a fixed word. -/
def word? (word bytes : List UInt8) : Option (List UInt8) :=
  if word.isPrefixOf bytes then some (bytes.drop word.length) else none

mutual

/-- One value and what follows it. Every second step of the recursion takes a byte, so twice the
length is fuel enough. -/
def value? : Nat → List UInt8 → Option (Source × List UInt8)
  | 0, _ => none
  | fuel + 1, bytes =>
    match skipSpace bytes with
    | [] => none
    | b :: rest =>
      if b = 0x22 then (scanText rest).map fun (units, left) => (.text units, left)
      else if b = 0x5B then
        match skipSpace rest with
        | 0x5D :: left => some (.array [], left)
        | _ => (items? fuel rest).map fun (items, left) => (.array items, left)
      else if b = 0x7B then
        match skipSpace rest with
        | 0x7D :: left => some (.object [], left)
        | _ => (members? fuel rest).map fun (members, left) => (.object members, left)
      else if b = 0x6E then (word? [0x75, 0x6C, 0x6C] rest).map fun left => (.null, left)
      else if b = 0x74 then (word? [0x72, 0x75, 0x65] rest).map fun left => (.bool true, left)
      else if b = 0x66 then
        (word? [0x61, 0x6C, 0x73, 0x65] rest).map fun left => (.bool false, left)
      else (numeral? (b :: rest)).map fun (n, left) => (.number n, left)

/-- The items of an array up to its closing bracket, at least one. -/
def items? : Nat → List UInt8 → Option (List Source × List UInt8)
  | 0, _ => none
  | fuel + 1, bytes => do
    let (item, rest) ← value? fuel bytes
    match skipSpace rest with
    | 0x5D :: left => some ([item], left)
    | 0x2C :: rest =>
      let (items, left) ← items? fuel rest
      some (item :: items, left)
    | _ => none

/-- The members of an object up to its closing brace, at least one. -/
def members? : Nat → List UInt8 → Option (List (List TextUnit × Source) × List UInt8)
  | 0, _ => none
  | fuel + 1, bytes =>
    match skipSpace bytes with
    | 0x22 :: rest => do
      let (key, rest) ← scanText rest
      match skipSpace rest with
      | 0x3A :: rest =>
        let (value, rest) ← value? fuel rest
        match skipSpace rest with
        | 0x7D :: left => some ([(key, value)], left)
        | 0x2C :: rest =>
          let (members, left) ← members? fuel rest
          some ((key, value) :: members, left)
        | _ => none
      | _ => none
    | _ => none

end

/-- The source tree of a whole text: one value with blanks around it. -/
def parse? (bytes : List UInt8) : Option Source :=
  match value? (2 * bytes.length + 1) bytes with
  | some (source, rest) => if (skipSpace rest).isEmpty then some source else none
  | none => none

end Source

end HomeTree.Json
