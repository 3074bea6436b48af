/-
  Points in time, in milliseconds since the epoch, up to the end of the year
  9999.
-/

namespace CubeRouting

/-- The last point in time. -/
def maxMillis : Nat := 253402300799000

/-- A point in time. -/
structure Timestamp where
  millis : Nat
  millis_le : millis ≤ maxMillis
deriving DecidableEq

namespace Timestamp

/-- The point in time with this number of milliseconds, or the last one. -/
def ofMillis (n : Nat) : Timestamp := ⟨min n maxMillis, Nat.min_le_right n maxMillis⟩

/-- The point `n` milliseconds later, or the last one. -/
def add (t : Timestamp) (n : Nat) : Timestamp := ofMillis (t.millis + n)

/-- The milliseconds since an earlier point, `0` if it is later. -/
def since (t earlier : Timestamp) : Nat := t.millis - earlier.millis

/-- The order of points in time. -/
def cmp (a b : Timestamp) : Ordering := compare a.millis b.millis

end Timestamp

end CubeRouting
