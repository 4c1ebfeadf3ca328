import HomeTree.Network.Address

/-!
Services in a network: a host and a number. A host is an address in numerals, or this machine by
its name; nobody knows the others.
-/

namespace HomeTree

/-- Why a text leads to no service. -/
inductive ServiceFault where
  | badNumber
  /-- A host with the character 0. -/
  | hasNul
  /-- A host that cannot be a name. -/
  | noName
  /-- A name that nobody answers for. -/
  | noAnswer
deriving DecidableEq, Repr

namespace ServiceFault

def message : ServiceFault → String
  | .badNumber => "invalid port value"
  | .hasNul => "file name contained an unexpected NUL byte"
  | .noName => "failed to lookup address information: Name or service not known"
  | .noAnswer =>
    "failed to lookup address information: Temporary failure in name resolution"

end ServiceFault

structure ServiceAddress where
  address : Address
  number : Nat
deriving DecidableEq, Repr

namespace ServiceAddress

def numberLimit : Nat := 65535

def digits? (cs : List Char) : Option Nat :=
  Numeral.upTo? numberLimit 10 cs

/-- A number may have a plus sign. -/
def number? : List Char → Option Nat
  | '+' :: rest => digits? rest
  | cs => digits? cs

/-- Host and number, divided by the last colon. -/
def divided (cs : List Char) : List Char × List Char :=
  let number := (cs.reverse.takeWhile (· ≠ ':')).reverse
  ((cs.reverse.drop (number.length + 1)).reverse, number)

/-- A long address in brackets before a number without a sign. -/
def bracketed? (cs : List Char) : Option ServiceAddress :=
  match divided cs with
  | ('[' :: host, number) =>
    if host.getLast? = some ']' then do
      return ⟨← Address.zoned? host.dropLast, ← digits? number⟩
    else none
  | _ => none

def isNameChar (c : Char) : Bool :=
  c.isAlphanum || c == '-' || c == '_'

/-- Whether a host has the form of a name: words between dots, of 63 characters at most each and
of 253 in all. A dot may follow the last. -/
def isName (host : List Char) : Bool :=
  let name := if host.getLast? = some '.' then host.dropLast else host
  host == ['.'] || (name.head? != some '-' && name.length ≤ 253
    && (parts '.' name).all fun word =>
      word != [] && word.length ≤ 63 && word.all isNameChar)

/-- The name of this machine, in capitals or not. -/
def isThisMachine (host : List Char) : Bool :=
  host.map Char.toLower == "localhost".toList

def host? (host : List Char) : Except ServiceFault Address :=
  if host.contains '\x00' then .error .hasNul
  else if isThisMachine host then .ok Address.loopback
  else
    match Address.short? host <|> Address.zoned? host with
    | some a => .ok a
    | none => .error (if isName host then .noAnswer else .noName)

def ofChars (cs : List Char) : Except ServiceFault ServiceAddress :=
  match bracketed? cs with
  | some s => .ok s
  | none =>
    let (host, number) := divided cs
    match number? number with
    | none => .error .badNumber
    | some number => (host? host).map (⟨·, number⟩)

/-- Where a service listens when it can. -/
def listeningText? (s : ServiceAddress) : Option String :=
  s.address.listeningText?.map (· ++ ":" ++ toString s.number)

end ServiceAddress

end HomeTree
