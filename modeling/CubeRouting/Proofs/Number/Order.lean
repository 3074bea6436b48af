/-
  The order of the floating-point numbers.

  `Binary64.line` puts the numbers on a line of integers: a pattern without its
  sign bit grows with the number, and both zeros are at `0`.

  * `rank_toNat`: the total order of the patterns in terms of sign and
    magnitude;
  * `lt_iff_line`, `numEq_iff_line`, `le_iff_line`: numbers compare as their
    places;
  * `line_le_of_before`: so do the patterns in their total order.
-/
import CubeRouting.Number.Binary64
import Mathlib

namespace CubeRouting.Binary64

/-- The place of a number on the line. -/
def line (x : Binary64) : Int :=
  if x.isNegative then -(x.magnitude.toNat : Int) else x.magnitude.toNat

theorem magnitude_toNat (x : Binary64) : x.magnitude.toNat = x.bits.toNat % 2 ^ 63 := by
  rw [magnitude, UInt64.toNat_and]
  exact Nat.and_two_pow_sub_one_eq_mod x.bits.toNat 63

theorem isNegative_iff (x : Binary64) : x.isNegative = true ↔ 2 ^ 63 ≤ x.bits.toNat := by
  have hlt := x.bits.toNat_lt
  rw [isNegative, beq_iff_eq, ← UInt64.toNat_inj, UInt64.toNat_shiftRight]
  simp only [UInt64.reduceToNat, Nat.reduceMod, Nat.shiftRight_eq_div_pow]
  omega

theorem magnitude_lt (x : Binary64) : x.magnitude.toNat < 2 ^ 63 := by
  rw [magnitude_toNat]
  exact Nat.mod_lt _ (by decide)

theorem rank_toNat (x : Binary64) : x.rank.toNat =
    if x.isNegative then 2 ^ 63 - 1 - x.magnitude.toNat else 2 ^ 63 + x.magnitude.toNat := by
  have hlt := x.bits.toNat_lt
  have hneg := x.isNegative_iff
  rw [rank, magnitude_toNat]
  split
  · rename_i h
    have hle := hneg.1 h
    rw [UInt64.toNat_not, UInt64.size]
    omega
  · rename_i h
    have hle : x.bits.toNat < 2 ^ 63 := Nat.not_le.1 fun hle => h (hneg.2 hle)
    have hor := Nat.two_pow_add_eq_or_of_lt hle 1
    rw [UInt64.toNat_or, Nat.or_comm, Nat.mod_eq_of_lt hle, ← Nat.mul_one (2 ^ 63), hor]
    rfl

theorem before_iff (x y : Binary64) : x.before y = true ↔ x.rank.toNat < y.rank.toNat := by
  rw [before, decide_eq_true_iff, UInt64.lt_iff_toNat_lt]

theorem before_asymm {x y : Binary64} (h : x.before y = true) : y.before x = false := by
  rw [before_iff] at h
  rw [← Bool.not_eq_true, before_iff]
  omega

/-- Not being before is transitive. -/
theorem before_trans_false {x y z : Binary64} (h : x.before y = false) (h' : y.before z = false) :
    x.before z = false := by
  rw [← Bool.not_eq_true, before_iff] at h h' ⊢
  omega

/-- The total order of the patterns goes along the line. -/
theorem line_le_of_before {x y : Binary64} (h : y.before x = false) : x.line ≤ y.line := by
  have hle : x.rank.toNat ≤ y.rank.toNat := by
    rw [← Nat.not_lt, ← before_iff, h]
    exact Bool.false_ne_true
  have hx := x.magnitude_lt
  have hy := y.magnitude_lt
  rw [rank_toNat, rank_toNat] at hle
  unfold line
  split <;> split <;> simp_all <;> omega

theorem isZero_iff (x : Binary64) : x.isZero = true ↔ x.magnitude.toNat = 0 := by
  rw [isZero, beq_iff_eq, ← UInt64.toNat_inj]
  rfl

/-- **Numbers compare as their places on the line.** -/
theorem lt_iff_line {x y : Binary64} (hx : x.isNaN = false) (hy : y.isNaN = false) :
    x.lt y = true ↔ x.line < y.line := by
  have hltx := x.magnitude_lt
  have hlty := y.magnitude_lt
  simp only [lt, hx, hy, Bool.not_false, Bool.true_and, Bool.and_eq_true, Bool.not_eq_true',
    ← Bool.not_eq_true, isZero_iff, before_iff, rank_toNat, line]
  split <;> split <;> omega

theorem toNat_bits (x : Binary64) : x.bits.toNat =
    if x.isNegative then 2 ^ 63 + x.magnitude.toNat else x.magnitude.toNat := by
  have hlt := x.bits.toNat_lt
  rw [magnitude_toNat]
  split
  · rename_i h
    have hle := x.isNegative_iff.1 h
    omega
  · rename_i h
    have hle : x.bits.toNat < 2 ^ 63 := Nat.not_le.1 fun hle => h (x.isNegative_iff.2 hle)
    omega

/-- **Numbers are equal at the same place on the line.** -/
theorem numEq_iff_line {x y : Binary64} (hx : x.isNaN = false) :
    x.numEq y = true ↔ x.line = y.line := by
  have hbits : x = y ↔ x.bits.toNat = y.bits.toNat := by
    rw [UInt64.toNat_inj]
    exact ⟨fun h => h ▸ rfl, fun h => congrArg mk h⟩
  simp only [numEq, hx, Bool.not_false, Bool.true_and, Bool.or_eq_true, beq_iff_eq, hbits,
    Bool.and_eq_true, isZero_iff, toNat_bits, line]
  have hltx := x.magnitude_lt
  have hlty := y.magnitude_lt
  split <;> split <;> omega

theorem le_iff_line {x y : Binary64} (hx : x.isNaN = false) (hy : y.isNaN = false) :
    x.le y = true ↔ x.line ≤ y.line := by
  rw [le, Bool.or_eq_true, lt_iff_line hx hy, numEq_iff_line hx]
  omega

end CubeRouting.Binary64
