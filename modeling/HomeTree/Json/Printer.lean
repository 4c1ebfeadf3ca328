import HomeTree.Json.Basic
import HomeTree.Decimal.Shortest

namespace HomeTree

/-- Positional notation reaches from `10 ^ -5` up to, and without, `10 ^ 16`; it has at least one
decimal. All other numbers have one digit before the point and a signed exponent. -/
def positional (e : Int) : Bool :=
  -5 ≤ e && e < 16

def zeros (n : Nat) : List Char :=
  List.replicate n '0'

def placed (digits : List Char) (e : Int) : List Char :=
  if e < 0 then '0' :: '.' :: zeros (-e - 1).toNat ++ digits
  else
    let places := e.toNat + 1
    let whole := digits.take places
    let behind := digits.drop places
    whole ++ zeros (places - whole.length) ++ '.' :: (if behind.isEmpty then ['0'] else behind)

def scientific (digits : List Char) (e : Int) : List Char :=
  let behind := digits.drop 1
  digits.take 1 ++ (if behind.isEmpty then [] else '.' :: behind)
    ++ 'e' :: (if e < 0 then '-' else '+') :: Nat.toDigits 10 e.natAbs

def Double.chars (x : Double) : List Char :=
  let body :=
    if x.mantissa = 0 then ['0', '.', '0']
    else
      let (digits, e) := Decimal.shortest x
      if positional e then placed digits e else scientific digits e
  if x.isNegative then '-' :: body else body

def Number.chars : Number → List Char
  | .integer n => if n < 0 then '-' :: Nat.toDigits 10 n.natAbs else Nat.toDigits 10 n.natAbs
  | .double x => x.chars

namespace Json

def hexDigit (n : Nat) : Char :=
  if n < 10 then Char.ofNat (48 + n) else Char.ofNat (87 + n)

/-- Quotes, backslashes and the characters below the blank are escaped, no others. -/
def escaped (c : Char) : List Char :=
  if c = '"' then ['\\', '"']
  else if c = '\\' then ['\\', '\\']
  else if c = '\x08' then ['\\', 'b']
  else if c = '\t' then ['\\', 't']
  else if c = '\n' then ['\\', 'n']
  else if c = '\x0c' then ['\\', 'f']
  else if c = '\r' then ['\\', 'r']
  else if c.toNat < 0x20 then
    ['\\', 'u', '0', '0', hexDigit (c.toNat / 16), hexDigit (c.toNat % 16)]
  else [c]

def quoted (s : String) : List Char :=
  '"' :: s.toList.flatMap escaped ++ ['"']

mutual

/-- The compact text. -/
def chars : Json → List Char
  | .null => ['n', 'u', 'l', 'l']
  | .bool true => ['t', 'r', 'u', 'e']
  | .bool false => ['f', 'a', 'l', 's', 'e']
  | .number n => n.chars
  | .string s => quoted s
  | .array [] => ['[', ']']
  | .array (item :: rest) => '[' :: chars item ++ itemChars rest
  | .object [] => ['\x7b', '\x7d']
  | .object ((key, value) :: rest) =>
    '\x7b' :: quoted key ++ ':' :: chars value ++ memberChars rest

/-- The items behind the first one, up to the closing bracket. -/
def itemChars : List Json → List Char
  | [] => [']']
  | item :: rest => ',' :: chars item ++ itemChars rest

def memberChars : List (String × Json) → List Char
  | [] => ['\x7d']
  | (key, value) :: rest => ',' :: quoted key ++ ':' :: chars value ++ memberChars rest

end

def text (j : Json) : String :=
  String.ofList j.chars

def newLine (depth : Nat) : List Char :=
  '\n' :: List.replicate (2 * depth) ' '

mutual

/-- The indented text: two blanks a level, empty containers on one line. -/
def prettyChars (depth : Nat) : Json → List Char
  | .array [] => ['[', ']']
  | .array (item :: rest) =>
    '[' :: newLine (depth + 1) ++ prettyChars (depth + 1) item ++ prettyItems depth rest
  | .object [] => ['\x7b', '\x7d']
  | .object ((key, value) :: rest) =>
    '\x7b' :: newLine (depth + 1) ++ quoted key ++ ':' :: ' ' :: prettyChars (depth + 1) value
      ++ prettyMembers depth rest
  | .null => ['n', 'u', 'l', 'l']
  | .bool b => if b then ['t', 'r', 'u', 'e'] else ['f', 'a', 'l', 's', 'e']
  | .number n => n.chars
  | .string s => quoted s

def prettyItems (depth : Nat) : List Json → List Char
  | [] => newLine depth ++ [']']
  | item :: rest =>
    ',' :: newLine (depth + 1) ++ prettyChars (depth + 1) item ++ prettyItems depth rest

def prettyMembers (depth : Nat) : List (String × Json) → List Char
  | [] => newLine depth ++ ['\x7d']
  | (key, value) :: rest =>
    ',' :: newLine (depth + 1) ++ quoted key ++ ':' :: ' ' :: prettyChars (depth + 1) value
      ++ prettyMembers depth rest

end

def pretty (j : Json) : String :=
  String.ofList (prettyChars 0 j)

end Json

end HomeTree
