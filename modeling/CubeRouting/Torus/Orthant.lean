/-
  On which side of a center a point lies.

  A point is ahead of the center on an axis if the way forward is shorter than
  the way back; half way round counts as behind.  The orthant number has a bit
  for each axis, the semiring number is its analogue for the whole identifier
  read as one coordinate.
-/
import CubeRouting.Identifier.Cells

namespace CubeRouting

/-- The largest number of dimensions with orthant numbers. -/
def maxOrthantDimensions : Nat := 63

/-- `point` is ahead of `center` on axis `c`. -/
def isAhead (center point : Identifier) (c : Nat) : Bool :=
  (center.coordinateBits c).isForward (point.coordinateBits c)

/-- The orthant of `point` as seen from `center`: bit `c` is set if it is ahead
    on axis `c`. -/
def orthantNumber (center point : Identifier) : Except IdentifierError Nat := do
  Identifier.checkShape center point
  if maxOrthantDimensions < center.dimensions then
    throw (.overflow center.dimensions maxOrthantDimensions)
  return BitString.toNat ((List.range center.dimensions).map (isAhead center point)).reverse

/-- `1` if `point` is ahead of `center` on the circle of all identifiers, else
    `0`. -/
def semiringNumber (center point : Identifier) : Except IdentifierError Nat := do
  Identifier.checkShape center point
  return (center.ringBits.isForward point.ringBits).toNat

end CubeRouting
