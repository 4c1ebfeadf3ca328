import HomeTree.Decimal.Double

/-!
The fewest decimal digits that read back as a given number, and of those the nearest ones.
A grid of decimals with `n` digits is searched for `n = 1, 2, …`: the first grid with a point in
the interval of values that round to the number gives the digits.
-/

namespace HomeTree.Decimal

def digitCount (n : Nat) : Nat :=
  (Nat.toDigits 10 n).length

/-- The values that round to a number, all over one denominator. -/
structure Interval where
  low : Nat
  middle : Nat
  high : Nat
  den : Nat
  /-- The ends round to the number too. -/
  closed : Bool

def Interval.ofDouble (x : Double) : Interval :=
  let m := x.mantissa
  let up := Nat.pow 2 x.exponent.toNat
  let low := if x.narrowBelow then 4 * m - 1 else 4 * m - 2
  ⟨low * up, 4 * m * up, (4 * m + 2) * up, 4 * Nat.pow 2 (-x.exponent).toNat, m % 2 = 0⟩

/-- The number `k` with `10 ^ (k - 1) ≤ num / den < 10 ^ k`. -/
def magnitude (num den : Nat) : Int :=
  if den ≤ num then digitCount (num / den)
  else 1 - (digitCount ((den + num - 1) / num - 1) : Int)

/-- A numerator over the denominator `den * 10 ^ (-p)` becomes comparable with `c * 10 ^ p`. -/
def gridValue (c : Nat) (p : Int) (den : Nat) : Nat :=
  c * den * Nat.pow 10 p.toNat

def Interval.holds (i : Interval) (c : Nat) (p : Int) : Bool :=
  let v := gridValue c p i.den
  let scale := Nat.pow 10 (-p).toNat
  if i.closed then i.low * scale ≤ v && v ≤ i.high * scale
  else i.low * scale < v && v < i.high * scale

/-- The point of the grid with step `10 ^ p` that stands for the number: one of the two
neighbours of its value, the nearer one if both do, the even one at equal distance. -/
def Interval.onGrid? (i : Interval) (p : Int) : Option Nat :=
  let scale := Nat.pow 10 (-p).toNat
  let step := gridValue 1 p i.den
  let c := i.middle * scale / step
  match i.holds c p, i.holds (c + 1) p with
  | false, false => none
  | true, false => some c
  | false, true => some (c + 1)
  | true, true =>
    let below := i.middle * scale - gridValue c p i.den
    let above := gridValue (c + 1) p i.den - i.middle * scale
    if below < above then some c
    else if above < below then some (c + 1)
    else if c % 2 = 0 then some c else some (c + 1)

/-- The digits of a positive number and the exponent of ten of the first one; the last digit is
not zero. -/
def shortest (x : Double) : List Char × Int :=
  let i := Interval.ofDouble x
  let k := magnitude i.middle i.den
  let hit := (List.range 17).findSome? fun n =>
    let p := k - (n + 1 : Nat)
    (i.onGrid? p).map fun c => (c, p)
  let (c, p) := hit.getD (0, 0)
  let digits := Nat.toDigits 10 c
  ((digits.reverse.dropWhile (· == '0')).reverse, p + digits.length - 1)

end HomeTree.Decimal
