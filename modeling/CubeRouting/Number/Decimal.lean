/-
  The decimal text of a floating-point number.

  A finite number is written with the fewest decimal digits that read back as
  it, always positional: `0.0000001`, `1000000000000000000000`.  `Cell` holds
  the number with the interval of reals that round to it, as integers over one
  denominator; `Cell.shortest` looks through the decimal grids, coarse to fine,
  for the first that has a point in the interval.
-/
import CubeRouting.Number.Binary64

namespace CubeRouting

/-! ## The reals that round to a number -/

/-- A positive real and the ends of an interval around it, as multiples of one
    unit. -/
structure Cell where
  value : Nat
  low : Nat
  high : Nat
  /-- How many units make `1`. -/
  unit : Nat
  /-- The ends belong to the interval. -/
  closed : Bool

namespace Binary64

/-- The biased exponent. -/
def exponentField (x : Binary64) : Nat := (x.magnitude >>> 52).toNat

/-- The fraction, without the implicit bit. -/
def fractionField (x : Binary64) : Nat := (x.magnitude &&& 0x000fffffffffffff).toNat

/-- The interval of positive reals whose closest number is the positive finite
    number with the magnitude of `x`. -/
def cell (x : Binary64) : Cell :=
  let e := x.exponentField
  let f := x.fractionField
  let m := if e = 0 then f else f + 4503599627370496
  -- the number is `m * 2 ^ (scale - 1074)`; a quarter of its last place is the unit
  let scale := Nat.pow 2 (e - 1)
  { value := 4 * m * scale
    low := (if f = 0 ∧ 1 < e then 4 * m - 1 else 4 * m - 2) * scale
    high := (4 * m + 2) * scale
    unit := Nat.pow 2 1076
    closed := m % 2 = 0 }

end Binary64

/-! ## The shortest decimal in an interval -/

/-- No finite number is below `10 ^ (-decimalPlaces)`. -/
def decimalPlaces : Nat := 400

/-- A natural number of units `10 ^ (place - decimalPlaces)`. -/
structure Decimal where
  digits : Nat
  place : Nat

namespace Cell

/-- `n` points of the grid `10 ^ (place - decimalPlaces)` end inside the
    interval. -/
def contains (c : Cell) (place n : Nat) : Bool :=
  let point := n * Nat.pow 10 place * c.unit
  let low := c.low * Nat.pow 10 decimalPlaces
  let high := c.high * Nat.pow 10 decimalPlaces
  if c.closed then low ≤ point && point ≤ high else low < point && point < high

/-- The point of one decimal grid that is in the interval and closest to the
    value, the larger one of two equally close. -/
def onGrid? (c : Cell) (place : Nat) : Option Nat :=
  let step := Nat.pow 10 place * c.unit
  let value := c.value * Nat.pow 10 decimalPlaces
  let below := value / step
  let rest := value % step
  match c.contains place below, c.contains place (below + 1) with
  | true, true => some (if 2 * rest < step then below else below + 1)
  | true, false => some below
  | false, true => some (below + 1)
  | false, false => none

/-- The first of the grids `place`, `place - 1`, … that has a point in the
    interval. -/
def searchFrom (c : Cell) : Nat → Option Decimal
  | 0 => (c.onGrid? 0).map (⟨·, 0⟩)
  | place + 1 =>
    match c.onGrid? (place + 1) with
    | some n => some ⟨n, place + 1⟩
    | none => c.searchFrom place

/-- The decimal of the fewest digits in the interval. -/
def shortest (c : Cell) : Decimal :=
  let magnitude := c.value * Nat.pow 10 decimalPlaces / c.unit
  (c.searchFrom (Nat.toDigits 10 magnitude).length).getD ⟨0, 0⟩

end Cell

/-! ## Text -/

/-- The positional form: no exponent, and no point where there is no
    fraction. -/
def Decimal.text (d : Decimal) : String :=
  let digits := Nat.toDigits 10 d.digits
  if decimalPlaces ≤ d.place then
    String.ofList (digits ++ List.replicate (d.place - decimalPlaces) '0')
  else
    let places := decimalPlaces - d.place
    let padded := List.replicate (places + 1 - digits.length) '0' ++ digits
    let whole := padded.length - places
    String.ofList (padded.take whole ++ '.' :: padded.drop whole)

/-- The text of a number. -/
def Binary64.text (x : Binary64) : String :=
  if x.isNaN then "NaN"
  else
    let sign := if x.isNegative then "-" else ""
    if !x.isFinite then sign ++ "inf"
    else if x.isZero then sign ++ "0"
    else sign ++ x.cell.shortest.text

end CubeRouting
