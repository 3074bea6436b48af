/-
  The shape of an identifier: how many dimensions the torus has and how many
  binary digits each coordinate has.
-/

namespace CubeRouting

/-- The largest number of dimensions and of digits. -/
def maxExtent : Nat := 1024

/-- The two extents of an identifier space. -/
structure Shape where
  /-- Bits per digit, which is the number of coordinates. -/
  dimensions : Nat
  /-- Digits per identifier, which is the number of bits of a coordinate. -/
  digits : Nat
  dimensions_pos : 1 ≤ dimensions := by decide
  dimensions_le : dimensions ≤ maxExtent := by decide
  digits_pos : 1 ≤ digits := by decide
  digits_le : digits ≤ maxExtent := by decide
deriving DecidableEq

namespace Shape

/-- The number of bits of an identifier. -/
def bitCount (s : Shape) : Nat := s.digits * s.dimensions

/-- The bits are numbered row by row. -/
theorem index_lt (s : Shape) {d c : Nat} (hd : d < s.digits) (hc : c < s.dimensions) :
    d * s.dimensions + c < s.bitCount := by
  have h := Nat.mul_le_mul_right s.dimensions hd
  rw [Nat.succ_mul] at h
  exact Nat.lt_of_lt_of_le (Nat.add_lt_add_left hc _) h

/-- The shape with these extents, if both are in range. -/
def ofExtents? (dimensions digits : Nat) : Option Shape :=
  if h : (1 ≤ dimensions ∧ dimensions ≤ maxExtent) ∧ 1 ≤ digits ∧ digits ≤ maxExtent then
    some ⟨dimensions, digits, h.1.1, h.1.2, h.2.1, h.2.2⟩
  else none

/-- A shape is written as its dimensions, an `x` and its digits. -/
def text (s : Shape) : String := toString s.dimensions ++ "x" ++ toString s.digits

end Shape

end CubeRouting
