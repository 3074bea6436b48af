/-
  Distances on the torus are metrics.

  Without rounding, the distances of the identifiers of one shape are natural
  numbers: the shorter ways round along the axes, added up or compared, or the
  shorter way round the circle of all identifiers.

  * `IsNatMetric.sum`, `IsNatMetric.sup`: distances along several axes make a
    metric;
  * `Metric.exists_isNatMetric`: what the metrics compute without rounding;
  * `Metric.between_comm`: distances are symmetric in every arithmetic;
  * `Metric.torus_metrics`: all this for bit strings and identifiers.
-/
import CubeRouting.Number.Binary64
import CubeRouting.Proofs.Identifier.Ring
import CubeRouting.Proofs.Number.Exact
import CubeRouting.Proofs.Torus.Distance

namespace CubeRouting

open BitString (toNat gap)

/-! ## Metrics with natural values -/

/-- A metric whose distances are natural numbers. -/
structure IsNatMetric {α : Type} (d : α → α → Nat) : Prop where
  eq_zero_iff : ∀ x y, d x y = 0 ↔ x = y
  comm : ∀ x y, d x y = d y x
  triangle : ∀ x y z, d x z ≤ d x y + d y z

namespace IsNatMetric

variable {α : Type} {d : α → α → Nat}

/-- A metric with natural values is a metric. -/
@[reducible] noncomputable def metricSpace (h : IsNatMetric d) : MetricSpace α where
  dist x y := d x y
  dist_self x := by rw [(h.eq_zero_iff x x).2 rfl, Nat.cast_zero]
  dist_comm x y := by rw [h.comm]
  dist_triangle x y z := by exact_mod_cast h.triangle x y z
  eq_of_dist_eq_zero {x y} hxy := (h.eq_zero_iff x y).1 (by exact_mod_cast hxy)

section
variable {axes : Finset Nat} {g : Nat → α → α → Nat}
  (hzero : ∀ x y, (∀ c ∈ axes, g c x y = 0) ↔ x = y) (hcomm : ∀ c x y, g c x y = g c y x)
  (htriangle : ∀ c x y z, g c x z ≤ g c x y + g c y z)
include hzero hcomm htriangle

/-- **The sum of the distances along all axes is a metric.** -/
theorem sum : IsNatMetric fun x y => ∑ c ∈ axes, g c x y where
  eq_zero_iff x y := by rw [Finset.sum_eq_zero_iff, hzero]
  comm x y := Finset.sum_congr rfl fun c _ => hcomm c x y
  triangle x y z := by
    rw [← Finset.sum_add_distrib]
    exact Finset.sum_le_sum fun c _ => htriangle c x y z

/-- **The largest of the distances along all axes is a metric.** -/
theorem sup : IsNatMetric fun x y => axes.sup fun c => g c x y where
  eq_zero_iff x y := by rw [Finset.sup_eq_zero, hzero]
  comm x y := Finset.sup_congr rfl fun c _ => hcomm c x y
  triangle x y z := Finset.sup_le fun c hc =>
    (htriangle c x y z).trans (Nat.add_le_add (Finset.le_sup (f := fun c => g c x y) hc)
      (Finset.le_sup (f := fun c => g c y z) hc))

end

end IsNatMetric

/-! ## Identifiers of one shape -/

namespace Identifier

variable {x y z : Identifier}

/-- The identifiers of one shape. -/
abbrev OfShape (s : Shape) : Type := { x : Identifier // x.shape = s }

section
variable (hs : x.shape = y.shape)
include hs

theorem axisGap_comm (c : Nat) : x.axisGap y c = y.axisGap x c := by
  rw [← toNat_gap_coordinateBits hs, ← toNat_gap_coordinateBits hs.symm,
    BitString.gap_comm (length_coordinateBits_congr hs c)]

theorem axisGap_triangle (hs' : y.shape = z.shape) (c : Nat) :
    x.axisGap z c ≤ x.axisGap y c + y.axisGap z c := by
  rw [← toNat_gap_coordinateBits hs, ← toNat_gap_coordinateBits hs',
    ← toNat_gap_coordinateBits (hs.trans hs')]
  exact BitString.toNat_gap_triangle (length_coordinateBits_congr hs c)
    (length_coordinateBits_congr hs' c)

/-- **Identifiers are equal if no axis tells them apart.** -/
theorem axisGap_eq_zero_iff :
    (∀ c ∈ Finset.range x.dimensions, x.axisGap y c = 0) ↔ x = y := by
  have hsame : ∀ c, x.axisGap y c = 0 ↔ x.coordinateBits c = y.coordinateBits c := fun c => by
    rw [← toNat_gap_coordinateBits hs,
      BitString.toNat_gap_eq_zero_iff (length_coordinateBits_congr hs c)]
  simp only [hsame, Finset.mem_range]
  exact ⟨ext_coordinateBits hs, fun h c _ => by rw [h]⟩

theorem ringGap_comm : x.ringGap y = y.ringGap x := by
  rw [← toNat_gap_ringBits hs, ← toNat_gap_ringBits hs.symm,
    BitString.gap_comm (length_ringBits_congr hs)]

theorem ringGap_triangle (hs' : y.shape = z.shape) :
    x.ringGap z ≤ x.ringGap y + y.ringGap z := by
  rw [← toNat_gap_ringBits hs, ← toNat_gap_ringBits hs', ← toNat_gap_ringBits (hs.trans hs')]
  exact BitString.toNat_gap_triangle (length_ringBits_congr hs) (length_ringBits_congr hs')

/-- **Identifiers are equal if they are at one point of the circle.** -/
theorem ringGap_eq_zero_iff : x.ringGap y = 0 ↔ x = y := by
  rw [← toNat_gap_ringBits hs, BitString.toNat_gap_eq_zero_iff (length_ringBits_congr hs)]
  refine ⟨fun h => ringNumber_inj hs ?_, fun h => by rw [h]⟩
  rw [← toNat_ringBits, h, toNat_ringBits]

end

end Identifier

/-! ## Distances without rounding -/

section
open Identifier

variable {a b : Identifier}

theorem axisDistance_real (x y : BitString) : (axisDistance x y : ℝ) = toNat (gap x y) :=
  BitString.toScalar_real _

theorem axisDistances_real (hs : a.shape = b.shape) :
    axisDistances a b = (List.range a.dimensions).map fun c => (a.axisGap b c : ℝ) :=
  List.map_congr_left fun c _ => by rw [axisDistance_real, toNat_gap_coordinateBits hs]

/-- Distances along the axes are symmetric in every arithmetic. -/
theorem axisDistances_comm {R : Type} [Scalar R] (hs : a.shape = b.shape) :
    (axisDistances a b : List R) = axisDistances b a := by
  rw [axisDistances, axisDistances, dimensions, hs]
  exact List.map_congr_left fun c _ => by
    rw [axisDistance, axisDistance, BitString.gap_comm (length_coordinateBits_congr hs c)]

namespace Metric

/-- **Distances are symmetric** in every arithmetic. -/
theorem between_comm {R : Type} [Scalar R] (m : Metric) (hs : a.shape = b.shape) :
    (m.between a b : R) = m.between b a := by
  cases m with
  | ring =>
    rw [between, between, axisDistance, axisDistance,
      BitString.gap_comm (length_ringBits_congr hs)]
  | _ => simp only [between, axisDistances_comm hs]

theorem manhattan_real (hs : a.shape = b.shape) :
    (manhattan.between a b : ℝ) = (∑ c ∈ Finset.range a.dimensions, a.axisGap b c : Nat) := by
  rw [between, axisDistances_real hs, Scalar.sum_real, Nat.cast_sum]
  rfl

theorem chebyshev_real (hs : a.shape = b.shape) :
    (chebyshev.between a b : ℝ) = ((Finset.range a.dimensions).sup (a.axisGap b) : Nat) := by
  rw [between, axisDistances_real hs, Scalar.foldl_max_real]

theorem ring_real (hs : a.shape = b.shape) : (ring.between a b : ℝ) = a.ringGap b := by
  rw [between, axisDistance_real, toNat_gap_ringBits hs]

/-- **Without rounding the metrics are metrics** with natural values, but for
    the Euclidean distance, which has other values. -/
theorem exists_isNatMetric (m : Metric) (hm : m ≠ .euclidean) (s : Shape) :
    ∃ d : OfShape s → OfShape s → Nat, IsNatMetric d ∧
      ∀ a b : OfShape s, (m.between a.1 b.1 : ℝ) = d a b := by
  have hshape : ∀ a b : OfShape s, a.1.shape = b.1.shape := fun a b => a.2.trans b.2.symm
  have hzero : ∀ a b : OfShape s,
      (∀ c ∈ Finset.range s.dimensions, a.1.axisGap b.1 c = 0) ↔ a = b := fun a b => by
    rw [Subtype.ext_iff, ← axisGap_eq_zero_iff (hshape a b), dimensions, a.2]
  have hcomm : ∀ c (a b : OfShape s), a.1.axisGap b.1 c = b.1.axisGap a.1 c :=
    fun c a b => axisGap_comm (hshape a b) c
  have htriangle : ∀ c (a b e : OfShape s),
      a.1.axisGap e.1 c ≤ a.1.axisGap b.1 c + b.1.axisGap e.1 c :=
    fun c a b e => axisGap_triangle (hshape a b) (hshape b e) c
  cases m with
  | manhattan =>
    refine ⟨_, IsNatMetric.sum hzero hcomm htriangle, fun a b => ?_⟩
    rw [manhattan_real (hshape a b), dimensions, a.2]
  | euclidean => exact absurd rfl hm
  | chebyshev =>
    refine ⟨_, IsNatMetric.sup hzero hcomm htriangle, fun a b => ?_⟩
    rw [chebyshev_real (hshape a b), dimensions, a.2]
  | ring =>
    refine ⟨fun a b => a.1.ringGap b.1, ⟨fun a b => ?_, fun a b => ringGap_comm (hshape a b),
      fun a b e => ringGap_triangle (hshape a b) (hshape b e)⟩, fun a b => ring_real (hshape a b)⟩
    rw [ringGap_eq_zero_iff (hshape a b), Subtype.ext_iff]

/-- **Distances on the torus.**  The bit string that is converted for an axis
    denotes the shorter way round, which is a metric on the strings of one
    length; without rounding the distances of identifiers are metrics, and with
    rounding they are symmetric. -/
theorem torus_metrics :
    (∀ x y : BitString, x.length = y.length → 1 ≤ x.length →
      (∀ (R : Type) [Scalar R], axisDistance x y = ((gap x y).toScalar : R)) ∧
      toNat (gap x y) = min ((toNat x - toNat y : Int) % (2 ^ x.length : Nat)).toNat
        ((toNat y - toNat x : Int) % (2 ^ x.length : Nat)).toNat ∧
      toNat (gap x y) ≤ 2 ^ (x.length - 1) ∧
      toNat (gap x y) = toNat (gap y x) ∧
      (toNat (gap x y) = 0 ↔ x = y) ∧
      ∀ z : BitString, y.length = z.length →
        toNat (gap x z) ≤ toNat (gap x y) + toNat (gap y z)) ∧
    (∀ m : Metric, m ≠ .euclidean → ∀ s, ∃ _ : MetricSpace (OfShape s), ∀ a b : OfShape s,
      (m.measure a.1 b.1 : Except IdentifierError ℝ) = .ok (dist a b)) ∧
    ∀ (m : Metric) (a b : Identifier), a.shape = b.shape →
      (m.measure a b : Except IdentifierError Binary64) = m.measure b a := by
  refine ⟨fun x y hlen hpos => ?_, fun m hm s => ?_, fun m a b hs => ?_⟩
  · exact ⟨fun _ _ => rfl, BitString.toNat_gap hlen, BitString.toNat_gap_le hlen hpos,
      congrArg toNat (BitString.gap_comm hlen), BitString.toNat_gap_eq_zero_iff hlen,
      fun z hlen' => BitString.toNat_gap_triangle hlen hlen'⟩
  · obtain ⟨d, hd, hbetween⟩ := m.exists_isNatMetric hm s
    refine ⟨hd.metricSpace, fun a b => ?_⟩
    rw [m.measure_of_shape (a.2.trans b.2.symm), hbetween a b]
    rfl
  · rw [m.measure_of_shape hs, m.measure_of_shape hs.symm, m.between_comm hs]

/-- The second and the last point of a circle of eight are two steps apart. -/
theorem torus_metrics_wraparound :
    let x : BitString := [false, false, true]
    let y : BitString := [true, true, true]
    (toNat (gap x y) = 2 ∧ toNat (gap x y) ≤ 4 ∧ (toNat (gap x y) = 0 ↔ x = y)) ∧
    (∃ _ : MetricSpace (OfShape (.mk 2 3)), ∀ a b : OfShape (.mk 2 3),
      (chebyshev.measure a.1 b.1 : Except IdentifierError ℝ) = .ok (dist a b)) ∧
    (euclidean.measure (.zero (.mk 2 3)) (.ofFn (.mk 2 3) (· == 2)) :
        Except IdentifierError Binary64) =
      euclidean.measure (.ofFn (.mk 2 3) (· == 2)) (.zero (.mk 2 3)) := by
  intro x y
  obtain ⟨haxis, hmetric, hcomm⟩ := torus_metrics
  obtain ⟨-, hgap, hle, -, hzero, -⟩ := haxis x y rfl (by decide)
  exact ⟨⟨hgap.trans (by decide), hle, hzero⟩, hmetric .chebyshev (by decide) _,
    hcomm .euclidean _ _ rfl⟩

end Metric

end

end CubeRouting
