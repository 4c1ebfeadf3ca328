namespace HomeTree.Numeral

def digit? (base : Nat) (c : Char) : Option Nat :=
  let n :=
    if c.isDigit then c.toNat - 48
    else if 'a' ≤ c ∧ c ≤ 'f' then c.toNat - 87
    else if 'A' ≤ c ∧ c ≤ 'F' then c.toNat - 55
    else base
  if n < base then some n else none

/-- The value of one digit or more. -/
def value? (base : Nat) (cs : List Char) : Option Nat :=
  if cs.isEmpty then none
  else (cs.mapM (digit? base)).map fun digits => digits.foldl (fun n d => n * base + d) 0

/-- A value that is not above a bound. -/
def upTo? (bound base : Nat) (cs : List Char) : Option Nat :=
  (value? base cs).filter (· ≤ bound)

end HomeTree.Numeral
