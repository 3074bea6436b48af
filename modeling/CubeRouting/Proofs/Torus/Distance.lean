/-
  Distances without rounding, and what digits say about them.

  `axisGap` and `ringGap` are the exact distances of two identifiers along an
  axis and on the circle of all identifiers.

  * `Metric.measure_of_shape`, `Metric.measure_error`: which identifiers have a
    distance;
  * `toNat_gap_coordinateBits`, `toNat_gap_ringBits`: they are what the bits
    denote that the metrics convert;
  * `SharesPrefix.axisGap_lt`, `SharesPrefix.ringGap_lt`: a shared prefix
    bounds them;
  * `IsNeighborAt.axisGap_lt`, `IsNeighborAt.axisGap_lt_of_ne`: so does a place
    in a neighboring hypercube.
-/
import CubeRouting.Proofs.Identifier.Coordinates
import CubeRouting.Proofs.Placement.Neighbors
import CubeRouting.Proofs.Torus.Circle
import CubeRouting.Torus.Metric

namespace CubeRouting

/-- Identifiers of one shape have a distance, in every arithmetic. -/
theorem Metric.measure_of_shape {R : Type} [Scalar R] (m : Metric) {a b : Identifier}
    (hs : a.shape = b.shape) : m.measure a b = .ok (m.between a b : R) := by
  simp only [measure, Identifier.checkShape, if_pos hs]
  rfl

theorem Metric.measure_error {R : Type} [Scalar R] (m : Metric) {a b : Identifier}
    (hs : a.shape ≠ b.shape) :
    (m.measure a b : Except IdentifierError R) = .error (.shapeMismatch a.shape b.shape) := by
  simp only [measure, Identifier.checkShape, if_neg hs]
  rfl

namespace Identifier

open BitString (toNat gap)

variable {x y : Identifier} {c m : Nat}

/-- The exact distance of two identifiers along axis `c`. -/
def axisGap (x y : Identifier) (c : Nat) : Nat :=
  circleDistance (2 ^ x.digits) (toNat (x.coordinateBits c)) (toNat (y.coordinateBits c))

/-- The exact distance of two identifiers on the circle of all identifiers. -/
def ringGap (x y : Identifier) : Nat :=
  circleDistance (2 ^ x.bitCount) (toNat x.ringBits) (toNat y.ringBits)

section
variable (hs : x.shape = y.shape)
include hs

theorem length_coordinateBits_congr (c : Nat) :
    (x.coordinateBits c).length = (y.coordinateBits c).length := by
  rw [length_coordinateBits, length_coordinateBits, digits, hs]

theorem length_ringBits_congr : x.ringBits.length = y.ringBits.length := by
  rw [length_ringBits_eq_bitCount, length_ringBits_eq_bitCount, bitCount, hs]

theorem toNat_gap_coordinateBits (c : Nat) :
    toNat (gap (x.coordinateBits c) (y.coordinateBits c)) = x.axisGap y c := by
  rw [BitString.toNat_gap (length_coordinateBits_congr hs c), length_coordinateBits, axisGap]

theorem toNat_gap_ringBits : toNat (gap x.ringBits y.ringBits) = x.ringGap y := by
  rw [BitString.toNat_gap (length_ringBits_congr hs), length_ringBits_eq_bitCount, ringGap]

/-! ## Shared digits -/

/-- Identifiers whose first `m` digits are `u` units apart along an axis are
    fewer than `|u| + 1` units of the last of these digits apart. -/
theorem axisGap_lt_of_leadingBits (hm : m ≤ x.digits) {u : Int}
    (h : (toNat (x.leadingBits c m) - toNat (y.leadingBits c m) : Int) ≡ u [ZMOD (2 ^ m : Nat)]) :
    x.axisGap y c < (u.natAbs + 1) * 2 ^ (x.digits - m) := by
  have hdigits : x.digits = y.digits := congrArg Shape.digits hs
  obtain ⟨rest, hrest, hx⟩ := x.coordinateBits_eq_append c hm
  obtain ⟨rest', hrest', hy⟩ := y.coordinateBits_eq_append c (hdigits ▸ hm)
  have hlen : rest.length = rest'.length := by rw [hrest, hrest', hdigits]
  have hstep : (toNat (x.leadingBits c m) - toNat (y.leadingBits c m) : Int) ≡
      u [ZMOD (2 ^ (x.leadingBits c m).length : Nat)] := by rwa [length_leadingBits]
  have hlt := BitString.circleDistance_append_lt hlen hstep
  rwa [← hx, ← hy, hrest, length_coordinateBits] at hlt

/-- **A shared prefix bounds the distance** along every axis. -/
theorem SharesPrefix.axisGap_lt (h : x.SharesPrefix y m) (hm : m ≤ x.digits)
    (hc : c < x.dimensions) : x.axisGap y c < 2 ^ (x.digits - m) := by
  have heq := h.leadingBits_eq (congrArg Shape.dimensions hs) hc
  have hlt := axisGap_lt_of_leadingBits hs (u := 0) hm (by rw [heq, Int.sub_self])
  rwa [Int.natAbs_zero, Nat.zero_add, Nat.one_mul] at hlt

/-- **A shared prefix bounds the distance** on the circle of all identifiers. -/
theorem SharesPrefix.ringGap_lt (h : x.SharesPrefix y m) (hm : m ≤ x.digits) :
    x.ringGap y < 2 ^ (x.dimensions * (x.digits - m)) := by
  have hdigits : x.digits = y.digits := congrArg Shape.digits hs
  obtain ⟨rest, hrest, hx⟩ := x.ringBits_eq_append hm
  obtain ⟨rest', hrest', hy⟩ := y.ringBits_eq_append (hdigits ▸ hm)
  have hlen : rest.length = rest'.length := by rw [hrest, hrest', dimensions, digits, hs]
  have hstep : (toNat (x.leadingDigits m) - toNat (y.leadingDigits m) : Int) ≡
      0 [ZMOD (2 ^ (x.leadingDigits m).length : Nat)] := by rw [h.leadingDigits_eq, Int.sub_self]
  have hlt := BitString.circleDistance_append_lt hlen hstep
  rwa [← hx, ← hy, hrest, length_ringBits_eq_bitCount, Int.natAbs_zero, Nat.zero_add,
    Nat.one_mul] at hlt

end

end Identifier

/-! ## Neighboring hypercubes -/

namespace IsNeighborAt

open Identifier
open BitString (toNat)

variable {self peer : Identifier} {c l : Nat}

variable (hs : self.shape = peer.shape) (hc : c < self.dimensions) (hl : l < self.digits)
  (h : IsNeighborAt self peer c l)
include hs hc hl h

/-- Along its dimension, the first digits of a neighbor are one unit off. -/
theorem leadingBits_modEq :
    ∃ up, (toNat (peer.leadingBits c (self.digits - l)) : Int) ≡
      toNat (self.leadingBits c (self.digits - l)) + unitOf up
        [ZMOD (2 ^ (self.digits - l) : Nat)] := by
  obtain ⟨y, hy, hshare⟩ := h
  obtain ⟨up, hstep⟩ : ∃ up, self.step up c (self.digits - l - 1) = .ok y :=
    hy.elim (⟨true, ·⟩) (⟨false, ·⟩)
  obtain ⟨y', hy', hshape, hunit, -⟩ :=
    exists_step_leadingBits self up hc (d := self.digits - l - 1) (by omega)
  obtain rfl : y' = y := Except.ok.inj (hy'.symm.trans hstep)
  have hpeer : peer.leadingBits c (self.digits - l) = y'.leadingBits c (self.digits - l) :=
    hshare.leadingBits_eq (congrArg Shape.dimensions (hs.symm.trans hshape.symm))
      (lt_of_lt_of_eq hc (congrArg Shape.dimensions hs))
  rw [Nat.sub_add_cancel (by omega)] at hunit
  exact ⟨up, hpeer ▸ hunit⟩

/-- **A neighbor is close** along its dimension. -/
theorem axisGap_lt : self.axisGap peer c < 2 ^ (l + 1) := by
  obtain ⟨up, hup⟩ := leadingBits_modEq hs hc hl h
  have hunit := (Int.ModEq.refl (toNat (self.leadingBits c (self.digits - l)) : Int)).sub hup
  rw [sub_add_cancel_left] at hunit
  have hlt := axisGap_lt_of_leadingBits hs (Nat.sub_le _ l) hunit
  rw [Int.natAbs_neg, natAbs_unitOf, Nat.sub_sub_self (Nat.le_of_lt hl)] at hlt
  rwa [Nat.pow_succ, Nat.mul_comm]

/-- **A neighbor is closer still** along every other dimension. -/
theorem axisGap_lt_of_ne {i : Nat} (hi : i < self.dimensions) (hne : i ≠ c) :
    self.axisGap peer i < 2 ^ l := by
  have heq : self.leadingBits i (self.digits - l) = peer.leadingBits i (self.digits - l) :=
    List.map_congr_left fun d hd => h.agreesOutside hs hc hl (List.mem_range.1 hd) i hi hne
  have hlt := axisGap_lt_of_leadingBits hs (u := 0) (Nat.sub_le _ l) (by rw [heq, Int.sub_self])
  rwa [Int.natAbs_zero, Nat.zero_add, Nat.one_mul, Nat.sub_sub_self (Nat.le_of_lt hl)] at hlt

end IsNeighborAt

end CubeRouting
