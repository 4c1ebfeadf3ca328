namespace HomeTree.Utf8

def encode (cs : List Char) : List UInt8 :=
  cs.flatMap String.utf8EncodeChar

/-- The bytes that a text takes. -/
def size (cs : List Char) : Nat :=
  (cs.map Char.utf8Size).foldr (· + ·) 0

def isTail (b : UInt8) : Bool :=
  0x80 ≤ b && b ≤ 0xBF

/-- The payload of a tail byte. -/
def tailBits (b : UInt8) : Nat :=
  b.toNat - 0x80

/-- Whether a tail byte may follow the lead byte: overlong forms, surrogates and values above
the last scalar are cut off here. -/
def isSecond (lead b : UInt8) : Bool :=
  if lead = 0xE0 then 0xA0 ≤ b && b ≤ 0xBF
  else if lead = 0xED then 0x80 ≤ b && b ≤ 0x9F
  else if lead = 0xF0 then 0x90 ≤ b && b ≤ 0xBF
  else if lead = 0xF4 then 0x80 ≤ b && b ≤ 0x8F
  else isTail b

/-- The first character and the bytes behind it, when the bytes begin with a shortest-form
encoding of a scalar value. -/
def decodeChar? : List UInt8 → Option (Char × List UInt8)
  | [] => none
  | a :: rest =>
    if a < 0x80 then
      some (Char.ofNat a.toNat, rest)
    else if a < 0xC2 then
      none
    else if a < 0xE0 then
      match rest with
      | b :: rest =>
        if isTail b then
          some (Char.ofNat ((a.toNat - 0xC0) * 64 + tailBits b), rest)
        else none
      | _ => none
    else if a < 0xF0 then
      match rest with
      | b :: c :: rest =>
        if isSecond a b && isTail c then
          some (Char.ofNat ((a.toNat - 0xE0) * 4096 + tailBits b * 64 + tailBits c), rest)
        else none
      | _ => none
    else if a < 0xF5 then
      match rest with
      | b :: c :: d :: rest =>
        if isSecond a b && isTail c && isTail d then
          some (Char.ofNat ((a.toNat - 0xF0) * 262144 + tailBits b * 4096 + tailBits c * 64
            + tailBits d), rest)
        else none
      | _ => none
    else none

theorem length_lt_of_decodeChar? {bytes rest : List UInt8} {c : Char}
    (h : decodeChar? bytes = some (c, rest)) : rest.length < bytes.length := by
  unfold decodeChar? at h
  grind

/-- The characters of the longest well-formed beginning, and the bytes left behind it. -/
def decodeAll (bytes : List UInt8) : List Char × List UInt8 :=
  match h : decodeChar? bytes with
  | none => ([], bytes)
  | some (c, rest) =>
    have := length_lt_of_decodeChar? h
    let (cs, left) := decodeAll rest
    (c :: cs, left)
termination_by bytes.length

/-- The text of well-formed bytes. -/
def decode? (bytes : List UInt8) : Option (List Char) :=
  match decodeAll bytes with
  | (cs, []) => some cs
  | _ => none

/-- The characters of the longest well-formed beginning. -/
def decodePrefix (bytes : List UInt8) : List Char :=
  (decodeAll bytes).1

end HomeTree.Utf8
