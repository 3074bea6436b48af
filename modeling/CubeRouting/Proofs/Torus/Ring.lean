/-
  The circle of all identifiers.

  Read as one number, identifiers of one shape are the points of a circle.

  * `Identifier.toNat_gap_ringBits_eq_min`: what the bits denote that the ring
    metric converts;
  * `Identifier.IsLineOf`: identifiers of one dimension with these numbers as
    coordinates, and `IsLineOf.axisDistances_eq`, how far apart they are;
  * `semiringNumber_eq`: which half of the circle a point lies in;
  * `Identifier.ring_reading`: all this together with the order of encodings.
-/
import CubeRouting.Proofs.Identifier.EncodingOrder
import CubeRouting.Proofs.Torus.Distance
import CubeRouting.Torus.Orthant

namespace CubeRouting

open BitString (toNat gap)

namespace Identifier

variable {a b p q : Identifier}

/-! ## One dimension -/

/-- `p` has one dimension, and its coordinate is the number of `a` with as many
    digits as `a` has bits. -/
structure IsLineOf (p a : Identifier) : Prop where
  dimensions_eq : p.dimensions = 1
  digits_eq : p.digits = a.bitCount
  number_eq : toNat (p.coordinateBits 0) = a.ringNumber

/-- Lines of identifiers of one shape have one shape. -/
theorem IsLineOf.shape_eq (hp : p.IsLineOf a) (hq : q.IsLineOf b) (hs : a.shape = b.shape) :
    p.shape = q.shape :=
  Shape.ext_extents (hp.dimensions_eq.trans hq.dimensions_eq.symm)
    (hp.digits_eq.trans ((congrArg Shape.bitCount hs).trans hq.digits_eq.symm))

/-- The one coordinate has the bits of the whole identifier. -/
theorem IsLineOf.coordinateBits_eq (h : p.IsLineOf a) : p.coordinateBits 0 = a.ringBits := by
  refine BitString.toNat_inj ?_ (h.number_eq.trans a.toNat_ringBits.symm)
  rw [length_coordinateBits, h.digits_eq, length_ringBits_eq_bitCount]

/-- Identifiers that are not too long can be laid out in one dimension. -/
theorem exists_isLineOf (hle : a.bitCount ≤ maxExtent) : ∃ p : Identifier, p.IsLineOf a := by
  let line : Shape := { dimensions := 1, digits := a.bitCount, digits_pos := a.bitCount_pos,
                        digits_le := hle }
  refine ⟨ofFn line fun d => a.ringBits.getD d false, rfl, rfl, ?_⟩
  have hlen : a.ringBits.length = line.digits := a.length_ringBits_eq_bitCount
  have hbits : (ofFn line fun d => a.ringBits.getD d false).coordinateBits 0 = a.ringBits := by
    refine List.ext_getElem (by rw [length_coordinateBits, hlen]; rfl) fun d hd hd' => ?_
    simp only [coordinateBits, List.getElem_map, List.getElem_range]
    rw [bit_ofFn line _ (hlen ▸ hd') Nat.one_pos]
    simp [line, List.getD_eq_getElem?_getD, hd']
  rw [hbits, toNat_ringBits]

/-- **Manhattan on a line converts the bits of the ring metric.** -/
theorem IsLineOf.axisDistances_eq {R : Type} [Scalar R] (hp : p.IsLineOf a) (hq : q.IsLineOf b) :
    axisDistances p q = [((gap a.ringBits b.ringBits).toScalar : R)] := by
  rw [axisDistances, hp.dimensions_eq, List.range_one, List.map_singleton, axisDistance,
    hp.coordinateBits_eq, hq.coordinateBits_eq]

/-- **The ring metric converts the shorter way round** between the numbers. -/
theorem toNat_gap_ringBits_eq_min (hs : a.shape = b.shape) :
    toNat (gap a.ringBits b.ringBits) = min (a.ringNumber - b.ringNumber : Int).natAbs
      (2 ^ a.bitCount - (a.ringNumber - b.ringNumber : Int).natAbs) := by
  have hb : b.ringNumber < 2 ^ a.bitCount := by
    rw [bitCount, hs]
    exact b.ringNumber_lt
  rw [toNat_gap_ringBits hs, ringGap, toNat_ringBits, toNat_ringBits,
    circleDistance_eq_min a.ringNumber_lt hb]

end Identifier

/-! ## Halves of the circle -/

/-- **A point is in the half ahead** if the way forward to it is not empty and
    less than half the circle. -/
theorem semiringNumber_eq {a b : Identifier} (hs : a.shape = b.shape) :
    semiringNumber a b = .ok (if
      0 < (b.ringNumber - a.ringNumber : Int) % (2 ^ a.bitCount : Nat) ∧
        (b.ringNumber - a.ringNumber : Int) % (2 ^ a.bitCount : Nat) < (2 ^ (a.bitCount - 1) : Nat)
      then 1 else 0) := by
  have hlen := a.length_ringBits_eq_bitCount
  have hforward := BitString.isForward_iff (Identifier.length_ringBits_congr hs)
    (hlen ▸ a.bitCount_pos)
  rw [hlen, Identifier.toNat_ringBits, Identifier.toNat_ringBits] at hforward
  rw [← if_congr hforward rfl rfl, semiringNumber, Identifier.checkShape, if_pos hs]
  cases a.ringBits.isForward b.ringBits <;> rfl

/-- **Identifiers read as numbers.**  The ring metric converts the shorter way
    round between the numbers of two identifiers, which is the distance of these
    numbers on a line of their own, and the semiring number says whether it leads
    forward.  Encodings and text are ordered as the numbers. -/
theorem Identifier.ring_reading {a b : Identifier} (hs : a.shape = b.shape) :
    (∀ (R : Type) [Scalar R], Metric.ring.measure a b =
      (.ok (gap a.ringBits b.ringBits).toScalar : Except IdentifierError R)) ∧
    toNat (gap a.ringBits b.ringBits) = min (a.ringNumber - b.ringNumber : Int).natAbs
      (2 ^ a.bitCount - (a.ringNumber - b.ringNumber : Int).natAbs) ∧
    (∀ x y : BitString, x.length = a.bitCount → y.length = a.bitCount →
      toNat x = a.ringNumber → toNat y = b.ringNumber → gap x y = gap a.ringBits b.ringBits) ∧
    (∀ p q : Identifier, p.IsLineOf a → q.IsLineOf b →
      gap (p.coordinateBits 0) (q.coordinateBits 0) = gap a.ringBits b.ringBits ∧
      ∀ (R : Type) [Scalar R], Metric.manhattan.measure p q =
        (.ok (Scalar.sum [(gap a.ringBits b.ringBits).toScalar]) : Except IdentifierError R)) ∧
    (a.bitCount ≤ maxExtent → (∃ p : Identifier, p.IsLineOf a) ∧ ∃ q : Identifier, q.IsLineOf b) ∧
    semiringNumber a b = .ok (if
      0 < (b.ringNumber - a.ringNumber : Int) % (2 ^ a.bitCount : Nat) ∧
        (b.ringNumber - a.ringNumber : Int) % (2 ^ a.bitCount : Nat) < (2 ^ (a.bitCount - 1) : Nat)
      then 1 else 0) ∧
    (a.toBytes .bigEndian < b.toBytes .bigEndian ↔ a.ringNumber < b.ringNumber) ∧
    (a.text < b.text ↔ a.ringNumber < b.ringNumber) := by
  have hlen := a.length_ringBits_eq_bitCount
  have hlen' := (length_ringBits_congr hs).symm.trans hlen
  refine ⟨fun R _ => Metric.measure_of_shape .ring hs, toNat_gap_ringBits_eq_min hs,
    fun x y hx hy hxa hyb => ?_, fun p q hp hq => ⟨?_, fun R _ => ?_⟩,
    fun hle => ⟨exists_isLineOf hle, exists_isLineOf ?_⟩, semiringNumber_eq hs,
    toBytes_lt_iff hs, text_lt_iff hs⟩
  · rw [← toNat_ringBits] at hxa hyb
    rw [BitString.toNat_inj (hx.trans hlen.symm) hxa, BitString.toNat_inj (hy.trans hlen'.symm) hyb]
  · rw [hp.coordinateBits_eq, hq.coordinateBits_eq]
  · rw [Metric.measure_of_shape .manhattan (hp.shape_eq hq hs), Metric.between,
      hp.axisDistances_eq hq]
  · rwa [bitCount, ← hs]

/-- The first and the last point of a circle of sixteen are next to each other,
    and the way forward from the first to the last is the long one. -/
theorem Identifier.ring_reading_lastPoint :
    let a : Identifier := .zero (.mk 2 2)
    let b : Identifier := .ofFn (.mk 2 2) fun _ => true
    (a.ringNumber = 0 ∧ b.ringNumber = 15) ∧ toNat (gap a.ringBits b.ringBits) = 1 ∧
      semiringNumber a b = .ok 0 ∧ a.toBytes .bigEndian < b.toBytes .bigEndian ∧
      a.text < b.text := by
  intro a b
  have ha : a.ringNumber = 0 := by decide
  have hb : b.ringNumber = 15 := by decide
  obtain ⟨-, hgap, -, -, -, hsemiring, hbytes, htext⟩ := ring_reading (a := a) (b := b) rfl
  rw [ha, hb] at hgap hsemiring hbytes htext
  exact ⟨⟨ha, hb⟩, hgap, hsemiring, hbytes.2 (by decide), htext.2 (by decide)⟩

end CubeRouting
