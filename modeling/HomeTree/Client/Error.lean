import HomeTree.Wire.Framing

namespace HomeTree

structure Duration where
  nanos : Nat
deriving DecidableEq, Repr

namespace Duration

def ofMillis (n : Nat) : Duration := ⟨n * 1000000⟩

/-- A whole number of units and its fraction, the fraction without zeros at its end. -/
def decimal (nanos unit places : Nat) : List Char :=
  let digits := Nat.toDigits 10 (nanos % unit)
  let fraction := List.replicate (places - digits.length) '0' ++ digits
  let fraction := (fraction.reverse.dropWhile (· == '0')).reverse
  Nat.toDigits 10 (nanos / unit) ++ if fraction.isEmpty then [] else '.' :: fraction

/-- In the largest unit that is not above it. -/
def text (d : Duration) : String :=
  if 1000000000 ≤ d.nanos then String.ofList (decimal d.nanos 1000000000 9) ++ "s"
  else if 1000000 ≤ d.nanos then String.ofList (decimal d.nanos 1000000 6) ++ "ms"
  else if 1000 ≤ d.nanos then String.ofList (decimal d.nanos 1000 3) ++ "µs"
  else toString d.nanos ++ "ns"

end Duration

inductive ClientError where
  /-- No handshake, a stream that ended, or nobody to read replies. -/
  | connection (reason : String)
  /-- No reply in time; a late one will be dropped. -/
  | timeout (token : Token) (operation : String) (after : Duration)
  /-- The server answered with an error. -/
  | tree (operation : String) (error : TreeError)
  /-- The server answered with a message that does not fit the request. -/
  | protocol (operation reply : String)
deriving DecidableEq, Repr

namespace ClientError

def message : ClientError → String
  | .connection reason => "connection error: " ++ reason
  | .timeout token operation after =>
    operation ++ " (token " ++ toString token ++ ") timed out after " ++ after.text
  | .tree operation error => operation ++ " failed: " ++ error.message
  | .protocol operation reply => "unexpected reply to " ++ operation ++ ": " ++ reply

def treeError? : ClientError → Option TreeError
  | .tree _ error => some error
  | _ => none

def ofWire (e : WireError) : ClientError :=
  .connection e.message

/-- The error of a call that is started when a connection has ended. -/
def stopped : ClientError :=
  .connection "receive loop has stopped"

/-- The error of all who wait when a connection ends. -/
def lost (operation : String) : ClientError :=
  .connection ("connection lost while waiting for " ++ operation)

end ClientError

end HomeTree
