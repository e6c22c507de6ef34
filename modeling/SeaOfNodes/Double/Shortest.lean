import SeaOfNodes.Double.Basic

/-!
Shortest decimal text of a double: the coarsest decimal grid that has a point among the reals that round to the number, and on
that grid the point nearest to it.
-/

namespace SeaOfNodes.Double

structure Rounding where
  low : Nat
  value : Nat
  high : Nat
  unit : Nat
  closed : Bool

def rounding (x : Double) : Rounding :=
  let scaled := if 1076 ≤ x.scale then 1 <<< (x.scale - 1076) else 1
  let unit := if 1076 ≤ x.scale then 1 else 1 <<< (1076 - x.scale)
  let below := if x.fraction = 0 && 1 < x.exponent then 1 else 2
  { low := (4 * x.significand - below) * scaled
    value := 4 * x.significand * scaled
    high := (4 * x.significand + 2) * scaled
    unit := unit
    closed := x.significand % 2 == 0 }

def Rounding.accepts (r : Rounding) (numerator : Nat) : Bool :=
  if r.closed then r.low ≤ numerator && numerator ≤ r.high else r.low < numerator && numerator < r.high

def Rounding.nearest? (r : Rounding) (step : Nat) : Option Nat :=
  let floor := r.value / step
  let down := r.accepts (floor * step)
  let up := r.accepts ((floor + 1) * step)
  if up && (!down || (floor + 1) * step - r.value ≤ r.value - floor * step) then some (floor + 1)
  else if down then some floor
  else none

def Rounding.times (r : Rounding) (factor : Nat) : Rounding :=
  { r with low := r.low * factor, value := r.value * factor, high := r.high * factor }

structure Decimal where
  digits : Nat
  up : Nat
  down : Nat

-- Grids finer than one, coarsest first.
def Rounding.fine (r : Rounding) (down : Nat) : Nat → Decimal
  | 0 => ⟨0, 0, 0⟩
  | grids + 1 =>
    match (r.times (Nat.pow 10 down)).nearest? r.unit with
    | some digits => ⟨digits, 0, down⟩
    | none => r.fine (down + 1) grids

-- Grids of one and above, coarsest first.
def Rounding.coarse (r : Rounding) : Nat → Decimal
  | 0 => match r.nearest? r.unit with
      | some digits => ⟨digits, 0, 0⟩
      | none => r.fine 1 325
  | up + 1 =>
    match r.nearest? (r.unit * Nat.pow 10 (up + 1)) with
    | some digits => ⟨digits, up + 1, 0⟩
    | none => r.coarse up

def shortest (x : Double) : Decimal :=
  let r := x.rounding
  r.coarse (toString (r.value / r.unit)).length

def Decimal.text (d : Decimal) : String :=
  let digits := (toString d.digits).toList
  if d.down = 0 then String.ofList (digits ++ List.replicate d.up '0')
  else
    let padded := List.replicate (d.down + 1 - digits.length) '0' ++ digits
    let whole := padded.length - d.down
    String.ofList (padded.take whole ++ '.' :: padded.drop whole)

def text (x : Double) : String :=
  if x.isNaN then "NaN"
  else
    let size := if !x.isFinite then "inf" else if x.isZero then "0" else x.shortest.text
    if x.isNegative then "-" ++ size else size

end SeaOfNodes.Double
