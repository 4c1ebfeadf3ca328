import HomeTree.Decimal.Double

/-!
Decimal numerals as written and the binary64 number they stand for. The leading digits that fit
a 64-bit word make the significand; it is multiplied or divided once by a power of ten, in
binary64 arithmetic, and by `10 ^ 308` first where the exponent is below the table of powers.
-/

namespace HomeTree.Decimal

/-- A decimal numeral: its digits before and behind the point, and its exponent if it has one. -/
structure Numeral where
  negative : Bool
  whole : List Nat
  fraction : List Nat
  exponent : Option Int
deriving DecidableEq, Repr

def Numeral.isInteger (n : Numeral) : Bool :=
  n.fraction.isEmpty && n.exponent.isNone

def ofDigits (digits : List Nat) : Nat :=
  digits.foldl (fun n d => 10 * n + d) 0

def wordMax : Nat := 0xFFFFFFFFFFFFFFFF

/-- Takes digits into the significand while it fits a word, and counts them. -/
def absorb (significand : Nat) : List Nat → Nat × Nat
  | [] => (significand, 0)
  | d :: rest =>
    if wordMax < 10 * significand + d then (significand, 0)
    else
      let (s, taken) := absorb (10 * significand + d) rest
      (s, taken + 1)

/-- The power of ten as the nearest binary64 number. -/
def powerOfTen (k : Nat) : Float :=
  Float.ofScientific 1 false k

/-- A significand times a power of ten; nothing when it is beyond the largest number. -/
def scale : Nat → Float → Int → Option Float
  | 0, x, _ => some x
  | steps + 1, x, e =>
    if 308 < e then
      if x == 0 then some x else none
    else if 0 ≤ e then
      let y := x * powerOfTen e.toNat
      if y.isInf then none else some y
    else if -308 ≤ e then
      some (x / powerOfTen (-e).toNat)
    else
      scale steps (x / powerOfTen 308) (e + 308)

/-- The number a numeral stands for. Three divisions by `10 ^ 308` take every significand to
zero. -/
def Numeral.toDouble? (n : Numeral) : Option Double :=
  let (s, taken) := absorb 0 n.whole
  let (s, behind) := absorb s n.fraction
  let e : Int := n.exponent.getD 0 + (n.whole.length - taken : Nat) - behind
  (scale 4 (UInt64.ofNat s).toFloat e).map fun x => Double.ofFloat (if n.negative then -x else x)

end HomeTree.Decimal
