/-
  The numbers that distances and scores are computed with.

  `Scalar R` names the operations that the distances, the anchored distances
  and the evenness objective need.  The program runs them on the 64-bit
  floating-point numbers (`Binary64`); the same definitions read over an
  ordered field say what they compute without rounding.
-/

namespace CubeRouting

/-- The arithmetic of distances: a number system with roots, powers and two
    comparisons. -/
class Scalar (R : Type) extends Add R, Sub R, Mul R, Div R where
  /-- The number closest to a natural number. -/
  ofNat : Nat → R
  /-- The square root. -/
  sqrt : R → R
  /-- The power `x ^ y`. -/
  pow : R → R → R
  /-- The larger of two numbers. -/
  max : R → R → R
  /-- `x < y` as numbers. -/
  lt : R → R → Bool
  /-- `x` comes strictly before `y` in the total order of all values. -/
  before : R → R → Bool

namespace Scalar

variable {R : Type} [Scalar R]

/-- The number `0`. -/
@[inline] def zero : R := ofNat 0

/-- The sum of a list, from its first element to its last. -/
def sum (xs : List R) : R := xs.foldl (· + ·) zero

end Scalar

end CubeRouting
