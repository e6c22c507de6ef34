namespace SeaOfNodes

structure Double where
  bits : UInt64
deriving DecidableEq, Repr

namespace Double

-- Values of the sign bit and of the lowest bit of the exponent.
def signUnit : Nat := 0x8000000000000000
def exponentUnit : Nat := 0x10000000000000

def isNegative (x : Double) : Bool := x.bits.toNat / signUnit == 1

-- Exponent and fraction as one number: it grows with the absolute value.
def magnitude (x : Double) : Nat := x.bits.toNat % signUnit

def exponent (x : Double) : Nat := x.magnitude / exponentUnit

def fraction (x : Double) : Nat := x.magnitude % exponentUnit

def infinityMagnitude : Nat := 2047 * exponentUnit

def isNaN (x : Double) : Bool := infinityMagnitude < x.magnitude

def isFinite (x : Double) : Bool := x.magnitude < infinityMagnitude

def isZero (x : Double) : Bool := x.magnitude == 0

def key (x : Double) : Int := if x.isNegative then -(x.magnitude : Int) else x.magnitude

def le (x y : Double) : Bool := !x.isNaN && !y.isNaN && decide (x.key ≤ y.key)

def lt (x y : Double) : Bool := !x.isNaN && !y.isNaN && decide (x.key < y.key)

def eq (x y : Double) : Bool := !x.isNaN && !y.isNaN && decide (x.key = y.key)

def min (x y : Double) : Double := if x.isNaN then y else if y.isNaN then x else if x.lt y then x else y

def max (x y : Double) : Double := if x.isNaN then y else if y.isNaN then x else if y.lt x then x else y

def ofMagnitude (negative : Bool) (magnitude : Nat) : Double :=
  ⟨UInt64.ofNat (if negative then signUnit + magnitude else magnitude)⟩

def posInfinity : Double := ofMagnitude false infinityMagnitude

def negInfinity : Double := ofMagnitude true infinityMagnitude

def zero : Double := ⟨0⟩

def significand (x : Double) : Nat := if x.exponent = 0 then x.fraction else exponentUnit + x.fraction

def scale (x : Double) : Nat := x.exponent - 1

def integerPart (x : Double) : Nat :=
  if 1074 ≤ x.scale then x.significand <<< (x.scale - 1074) else x.significand >>> (1074 - x.scale)

def isIntegral (x : Double) : Bool :=
  x.isFinite && (decide (1074 ≤ x.scale) || x.significand % (1 <<< (1074 - x.scale)) == 0)

def magnitudeOfNat (n : Nat) : Nat :=
  if n = 0 then 0
  else
    let top := n.log2
    if top ≤ 52 then (1023 + top) * exponentUnit + (n <<< (52 - top) - exponentUnit)
    else
      let shift := top - 52
      let unit := 1 <<< shift
      let quotient := n / unit
      let rest := 2 * (n % unit)
      let rounded :=
        if rest < unit then quotient
        else if unit < rest then quotient + 1
        else quotient + quotient % 2
      -- A carry out of the fraction moves into the exponent.
      Nat.min infinityMagnitude ((1023 + top) * exponentUnit + (rounded - exponentUnit))

def ofInt (i : Int) : Double := ofMagnitude (decide (i < 0)) (magnitudeOfNat i.natAbs)

def ofInt32 (i : Int32) : Double := ofInt i.toInt

def ofUInt32 (n : UInt32) : Double := ofInt n.toNat

def toUInt32Clamped (x : Double) : UInt32 :=
  if x.isNaN || x.isNegative then 0
  else if !x.isFinite then 4294967295
  else UInt32.ofNat (Nat.min 4294967295 x.integerPart)

def toInt32Clamped (x : Double) : Int32 :=
  if x.isNaN then 0
  else
    let size := if x.isFinite then x.integerPart else 2147483648
    if x.isNegative then Int32.ofInt (-(Nat.min 2147483648 size : Nat))
    else Int32.ofNat (Nat.min 2147483647 size)

end Double

end SeaOfNodes
