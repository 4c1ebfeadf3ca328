import HomeTree.Message.Encoding
import HomeTree.Text.Blank

namespace HomeTree

inductive WireError where
  | io (reason : String)
  /-- The stream ended between two blocks. -/
  | closed
  /-- Larger than the limit; the token is known if the payload begins with it. -/
  | tooLarge (token : Option Token) (size limit : Nat)
  | empty
  /-- No frame; the token is known if it could be read alone. -/
  | decode (token : Option Token) (reason : String)
  | encode (reason : String)
deriving DecidableEq, Repr

namespace WireError

def name : WireError → String
  | .io _ => "Io"
  | .closed => "Closed"
  | .tooLarge .. => "TooLarge"
  | .empty => "Empty"
  | .decode .. => "Decode"
  | .encode _ => "Encode"

def message : WireError → String
  | .io reason => "i/o error: " ++ reason
  | .closed => "connection closed"
  | .tooLarge _ size limit =>
    "frame too large: " ++ toString size ++ " bytes (limit " ++ toString limit ++ ")"
  | .empty => "empty frame"
  | .decode _ reason => "cannot decode frame: " ++ reason
  | .encode reason => "cannot encode frame: " ++ reason

/-- After a fatal error the stream cannot be read on. -/
def isFatal : WireError → Bool
  | .io _ | .closed => true
  | .tooLarge .. | .empty | .decode .. | .encode _ => false

def token? : WireError → Option Token
  | .tooLarge token .. => token
  | .decode token _ => token
  | _ => none

/-- The answer to a block that is no frame, under its token. -/
def answer (e : WireError) (token : Token) : Frame :=
  ⟨token, .error "decode" (.protocol e.message)⟩

end WireError

namespace Wire

def defaultLimit : Nat := 16777216

/-- The bytes of an oversized payload that are looked at. -/
def prefixSize : Nat := 64

/-- Four bytes of length; lengths beyond them have no block. -/
def lengthBytes (n : Nat) : List UInt8 :=
  [UInt8.ofNat (n / 16777216), UInt8.ofNat (n / 65536), UInt8.ofNat (n / 256), UInt8.ofNat n]

def lengthOf (a b c d : UInt8) : Nat :=
  ((a.toNat * 256 + b.toNat) * 256 + c.toNat) * 256 + d.toNat

def block (payload : List UInt8) : List UInt8 :=
  lengthBytes payload.length ++ payload

/-- A frame as it is written to a stream. -/
def bytes (f : Frame) : List UInt8 :=
  block f.payload

/-- What is left of a text behind a word. -/
def after? (word cs : List Char) : Option (List Char) :=
  if word.isPrefixOf cs then some (cs.drop word.length) else none

/-- The token that a text begins with, if it is the first member of an object there. -/
def openingToken? (bytes : List UInt8) : Option Token := do
  let cs := Utf8.decodePrefix bytes
  let cs ← after? ['\x7b'] (skipBlanks cs)
  let cs ← after? ['"', 't', 'o', 'k', 'e', 'n', '"'] (skipBlanks cs)
  let cs ← after? [':'] (skipBlanks cs)
  let digits := (skipBlanks cs).takeWhile Char.isDigit
  let n := Decimal.ofDigits (digits.map fun c => c.toNat - 48)
  if digits ≠ [] ∧ n ≤ Decimal.wordMax then some n else none

/-- The token of an oversized payload, as far as it is looked at. -/
def leadingToken? (payload : List UInt8) : Option Token :=
  openingToken? (payload.take prefixSize)

/-- The frame of a payload. The reason for refusing one depends on what is wrong with it; one
constant text stands for all of these. -/
def decode (payload : List UInt8) : Except WireError Frame :=
  match Frame.ofPayload? payload with
  | some f => .ok f
  | none => .error (.decode (Frame.tokenOfPayload? payload) "the payload is not a frame")

/-- What a whole block says. -/
def outcome (limit : Nat) (payload : List UInt8) : Except WireError Frame :=
  if payload = [] then .error .empty
  else if limit < payload.length then
    .error (.tooLarge (leadingToken? payload) payload.length limit)
  else decode payload

/-- The first block of a stream, if it is there whole, and the bytes behind it. -/
def block? : List UInt8 → Option (List UInt8 × List UInt8)
  | a :: b :: c :: d :: rest =>
    let n := lengthOf a b c d
    if n ≤ rest.length then some (rest.take n, rest.drop n) else none
  | _ => none

/-- The stream ended within a block. How the system words that is left open; a constant text stands
for it. -/
def endOfStream : WireError := .io "unexpected end of stream"

/-- How a stream ends that has no further whole block. -/
def ending (bytes : List UInt8) : WireError :=
  if bytes.length < 4 then .closed else endOfStream

theorem length_lt_of_block? {bytes payload rest : List UInt8}
    (h : block? bytes = some (payload, rest)) : rest.length < bytes.length := by
  unfold block? at h
  split at h
  · simp only [Option.ite_none_right_eq_some, Option.some.injEq, Prod.mk.injEq] at h
    obtain ⟨-, -, rfl⟩ := h
    simp only [List.length_drop, List.length_cons]
    omega
  · simp at h

/-- The whole blocks of a stream and what is left behind them. -/
def blocks (bytes : List UInt8) : List (List UInt8) × List UInt8 :=
  match h : block? bytes with
  | none => ([], bytes)
  | some (payload, rest) =>
    have := length_lt_of_block? h
    let (more, left) := blocks rest
    (payload :: more, left)
termination_by bytes.length

/-- Takes so many bytes of a stream, if it has them. -/
def takeExact? (n : Nat) (bytes : List UInt8) : Option (List UInt8 × List UInt8) :=
  if n ≤ bytes.length then some (bytes.take n, bytes.drop n) else none

/-- Passes over a payload and keeps no more of it than is looked at for its token. -/
def skipPayload? (n : Nat) (bytes : List UInt8) : Option (Option Token × List UInt8) := do
  let (head, bytes) ← takeExact? (min n prefixSize) bytes
  let (_, bytes) ← takeExact? (n - head.length) bytes
  some (openingToken? head, bytes)

/-- Reads one payload, and returns the stream behind it. -/
def readPayload (limit : Nat) : List UInt8 → Except WireError (List UInt8) × List UInt8
  | a :: b :: c :: d :: bytes =>
    let n := lengthOf a b c d
    if n = 0 then (.error .empty, bytes)
    else if limit < n then
      match skipPayload? n bytes with
      | some (token, bytes) => (.error (.tooLarge token n limit), bytes)
      | none => (.error endOfStream, [])
    else
      match takeExact? n bytes with
      | some (payload, bytes) => (.ok payload, bytes)
      | none => (.error endOfStream, [])
  | _ => (.error .closed, [])

def readFrame (limit : Nat) (bytes : List UInt8) : Except WireError Frame × List UInt8 :=
  match readPayload limit bytes with
  | (.ok payload, bytes) => (decode payload, bytes)
  | (.error e, bytes) => (.error e, bytes)

/-- Whether nothing can be read behind what was read. -/
def isLast : Except WireError Frame → Bool
  | .ok _ => false
  | .error e => e.isFatal

theorem takeExact?_of_le {n : Nat} {bytes : List UInt8} (h : n ≤ bytes.length) :
    takeExact? n bytes = some (bytes.take n, bytes.drop n) :=
  if_pos h

theorem takeExact?_of_lt {n : Nat} {bytes : List UInt8} (h : bytes.length < n) :
    takeExact? n bytes = none :=
  if_neg (Nat.not_le.mpr h)

theorem skipPayload?_of_le {n : Nat} {bytes : List UInt8} (h : n ≤ bytes.length) :
    skipPayload? n bytes = some (leadingToken? (bytes.take n), bytes.drop n) := by
  have hhead : min n prefixSize ≤ bytes.length := by omega
  have hrest : n - (bytes.take (min n prefixSize)).length ≤
      (bytes.drop (min n prefixSize)).length := by
    simp only [List.length_take, List.length_drop]
    omega
  have htotal : min n prefixSize + (n - (bytes.take (min n prefixSize)).length) = n := by
    simp only [List.length_take]
    omega
  simp only [skipPayload?, takeExact?_of_le hhead, takeExact?_of_le hrest, Option.bind_eq_bind,
    Option.bind_some, List.drop_drop, htotal, leadingToken?, List.take_take,
    Nat.min_comm prefixSize n]

theorem skipPayload?_of_lt {n : Nat} {bytes : List UInt8} (h : bytes.length < n) :
    skipPayload? n bytes = none := by
  by_cases hhead : min n prefixSize ≤ bytes.length
  · have hrest : (bytes.drop (min n prefixSize)).length <
        n - (bytes.take (min n prefixSize)).length := by
      simp only [List.length_take, List.length_drop]
      omega
    simp only [skipPayload?, takeExact?_of_le hhead, takeExact?_of_lt hrest, Option.bind_eq_bind,
      Option.bind_some, Option.bind_none]
  · simp only [skipPayload?, takeExact?_of_lt (Nat.not_le.mp hhead), Option.bind_eq_bind,
      Option.bind_none]

/-- A block that is there whole is read as it stands alone, and no more of the stream is taken. -/
theorem readFrame_of_block? {limit : Nat} {bytes payload rest : List UInt8}
    (h : block? bytes = some (payload, rest)) :
    readFrame limit bytes = (outcome limit payload, rest) := by
  unfold block? at h
  split at h
  next a b c d bytes =>
    obtain ⟨hle, heq⟩ := Option.ite_none_right_eq_some.mp h
    cases heq
    have hlength : (bytes.take (lengthOf a b c d)).length = lengthOf a b c d :=
      List.length_take_of_le hle
    by_cases hzero : lengthOf a b c d = 0
    · simp [readFrame, readPayload, outcome, hzero]
    · have hne : bytes.take (lengthOf a b c d) ≠ [] := fun hnil => by simp [hnil] at hlength; omega
      by_cases hlimit : limit < lengthOf a b c d
      · simp only [readFrame, readPayload, outcome, hzero, hne, hlimit, hlength,
          skipPayload?_of_le hle, if_true, if_false]
      · simp only [readFrame, readPayload, outcome, hzero, hne, hlimit, hlength,
          takeExact?_of_le hle, if_false]
  next => cases h

theorem readFrame_of_no_block {limit : Nat} {bytes : List UInt8} (h : block? bytes = none) :
    readFrame limit bytes = (.error (ending bytes), []) := by
  match bytes, h with
  | a :: b :: c :: d :: bytes, h =>
    have hlt : bytes.length < lengthOf a b c d := by simpa [block?] using h
    have hzero : lengthOf a b c d ≠ 0 := by omega
    have hfour : ¬(a :: b :: c :: d :: bytes).length < 4 := by simp
    simp only [readFrame, readPayload, hzero, skipPayload?_of_lt hlt, takeExact?_of_lt hlt, ending,
      hfour, if_false, ite_self]
  | [], _ | [_], _ | [_, _], _ | [_, _, _], _ => rfl

theorem isLast_ending (bytes : List UInt8) : isLast (.error (ending bytes)) = true := by
  unfold ending
  split <;> rfl

theorem isLast_outcome (limit : Nat) (payload : List UInt8) :
    isLast (outcome limit payload) = false := by
  unfold outcome decode
  split
  next => rfl
  next =>
    split
    next => rfl
    next => split <;> rfl

theorem length_readFrame_lt {limit : Nat} {bytes : List UInt8}
    (h : ¬isLast (readFrame limit bytes).1 = true) :
    (readFrame limit bytes).2.length < bytes.length := by
  cases hblock : block? bytes with
  | none =>
    rw [readFrame_of_no_block hblock] at h
    exact absurd (isLast_ending bytes) h
  | some split =>
    rw [readFrame_of_block? hblock]
    exact length_lt_of_block? hblock

/-- Reads frame after frame up to the first fatal error. -/
def readAll (limit : Nat) (bytes : List UInt8) : List (Except WireError Frame) :=
  let reading := readFrame limit bytes
  if isLast reading.1 then [reading.1] else reading.1 :: readAll limit reading.2
termination_by bytes.length
decreasing_by exact length_readFrame_lt ‹_›

end Wire

end HomeTree
