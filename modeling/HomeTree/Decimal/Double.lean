/-!
Numbers of binary64, held by their bits: a number is finite and has the value
`(-1)^sign * mantissa * 2^exponent`.
-/

namespace HomeTree

structure Double where
  bits : UInt64
deriving DecidableEq, Repr

namespace Double

def ofFloat (x : Float) : Double := ⟨x.toBits⟩

def toFloat (x : Double) : Float := Float.ofBits x.bits

def isNegative (x : Double) : Bool :=
  x.bits >>> 63 == 1

/-- The eleven bits between sign and fraction. -/
def biased (x : Double) : Nat :=
  ((x.bits >>> 52) &&& 0x7FF).toNat

def fraction (x : Double) : Nat :=
  (x.bits &&& 0xFFFFFFFFFFFFF).toNat

def mantissa (x : Double) : Nat :=
  if x.biased = 0 then x.fraction else 0x10000000000000 + x.fraction

def exponent (x : Double) : Int :=
  (max x.biased 1 : Nat) - 1075

/-- The gap below a power of two is half the gap above it. -/
def narrowBelow (x : Double) : Bool :=
  x.fraction = 0 && 1 < x.biased

end Double

end HomeTree
