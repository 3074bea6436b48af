/-
  Arithmetic without rounding.

  The distances are computed in any `Scalar`.  Over the real numbers the same
  definitions give what is computed before any rounding.  `Exact` leaves open
  what powers are.

  * `BitString.toScalar_real`: the conversion of a bit string is exact;
  * `Scalar.sum_real`, `Scalar.foldl_max_real`: sums and largest elements;
  * `Exact.sum_eq`: sums, whatever powers are.
-/
import CubeRouting.Proofs.BitString
import Mathlib

namespace CubeRouting

/-- Arithmetic without rounding. -/
noncomputable instance : Scalar ℝ where
  ofNat n := n
  sqrt := Real.sqrt
  pow x y := x ^ y
  max := max
  lt x y := decide (x < y)
  before x y := decide (x < y)

/-- Real numbers are divided as in their field, whatever else divides. -/
noncomputable instance Scalar.divReal : Div ℝ := DivInvMonoid.toDiv

namespace Scalar

theorem zero_real : (zero : ℝ) = 0 := Nat.cast_zero

theorem lt_real {x y : ℝ} : lt x y = true ↔ x < y := decide_eq_true_iff

theorem sum_real (xs : List ℝ) : sum xs = xs.sum := by
  rw [sum, zero_real, List.sum_eq_foldl]

/-- The largest of some natural numbers, found in the real numbers. -/
theorem foldl_max_real (f : Nat → Nat) (n : Nat) :
    ((List.range n).map fun c => (f c : ℝ)).foldl Scalar.max zero =
      ((Finset.range n).sup f : Nat) := by
  induction n with
  | zero => simp [zero_real]
  | succ n ih =>
    rw [List.range_succ, List.map_append, List.foldl_append, ih, Finset.range_add_one,
      Finset.sup_insert, max_comm, Nat.cast_max]
    rfl

end Scalar

/-- **The conversion of a bit string is exact** without rounding. -/
theorem BitString.toScalar_real (x : BitString) : (x.toScalar : ℝ) = x.toNat := by
  induction x using List.reverseRecOn with
  | nil => simp [toScalar, toNat, Scalar.ofNat]
  | append_singleton x b ih =>
    have hlast : (toScalar (x ++ [b]) : ℝ) =
        toScalar x * (2 : Nat) + (if b then (1 : Nat) else (0 : Nat)) := by
      rw [toScalar, List.foldl_append]
      cases b <;> rfl
    rw [hlast, ih, toNat_concat]
    cases b <;> simp [mul_comm]

/-! ## Any powers -/

/-- The real numbers, with `power` in the place of powers. -/
def Exact (_power : ℝ → ℝ → ℝ) : Type := ℝ

namespace Exact

variable {power : ℝ → ℝ → ℝ} {x y : Exact power}

noncomputable instance : Field (Exact power) := inferInstanceAs (Field ℝ)

noncomputable instance : LinearOrder (Exact power) := inferInstanceAs (LinearOrder ℝ)

instance : IsStrictOrderedRing (Exact power) := inferInstanceAs (IsStrictOrderedRing ℝ)

/-! The arithmetic is that of the field, whatever else adds, multiplies or divides. -/

noncomputable instance : Add (Exact power) := Distrib.toAdd

noncomputable instance : Sub (Exact power) := SubNegMonoid.toSub

noncomputable instance : Mul (Exact power) := Distrib.toMul

noncomputable instance : Div (Exact power) := DivInvMonoid.toDiv

/-- Arithmetic without rounding, but for powers. -/
noncomputable instance : Scalar (Exact power) where
  ofNat n := n
  sqrt := Real.sqrt
  pow := power
  max := max
  lt x y := decide (x < y)
  before x y := decide (x < y)

theorem zero_eq : (Scalar.zero : Exact power) = 0 := Nat.cast_zero

theorem lt_iff : Scalar.lt x y = true ↔ x < y := decide_eq_true_iff

theorem before_iff : Scalar.before x y = true ↔ x < y := decide_eq_true_iff

theorem before_eq_false_iff : Scalar.before x y = false ↔ y ≤ x := by
  rw [← Bool.not_eq_true, before_iff, not_lt]

theorem sum_eq (xs : List (Exact power)) : Scalar.sum xs = xs.sum := by
  rw [Scalar.sum, zero_eq, List.sum_eq_foldl]

end Exact

end CubeRouting
