/-
  Numbers that are not negative.

  A distance is made of bits by sums, products with two, squares, roots and
  maxima.  None of these leaves the numbers that are not negative (with the
  positive infinity), so a distance is never a NaN.

  * `IsPositive.add`, `IsPositive.sq`, `IsPositive.sqrt`: the operations on
    unpacked numbers;
  * `IsPositive.toNat_pack_le`, `isPositive_unpack`: packing, and back;
  * `Nonneg.add`, `Nonneg.sq`, `Nonneg.sqrt`: the operations on patterns;
  * `Metric.nonneg_between`: the distances.
-/
import CubeRouting.Proofs.Number.Order
import CubeRouting.Torus.Metric

namespace CubeRouting

open Float.Model (UnpackedFloat Format)
open Float.Model.UnpackedFloat (packComponents unpackExponent unpackMantissa unpackSign)

/-! ## Unpacked numbers -/

/-- An unpacked number with a positive sign. -/
inductive IsPositive : UnpackedFloat → Prop
  | infinity : IsPositive (.infinity .positive)
  | zero : IsPositive (.zero .positive)
  | finite (m : Nat) (e : Int) (hm : 0 < m) : IsPositive (.finite .positive m e hm)

section
variable {spec : Format} {f g : UnpackedFloat}

theorem isPositive_roundWithAccuracy (m : Nat) (e : Int) (acc : UnpackedFloat.Accuracy) :
    IsPositive (UnpackedFloat.roundWithAccuracy spec .positive m e acc) := by
  unfold UnpackedFloat.roundWithAccuracy
  dsimp only
  split
  · exact .zero
  · exact .finite ..

theorem isPositive_normalize {m : Int} (hm : 0 ≤ m) (e : Int) :
    IsPositive (UnpackedFloat.normalize spec m e .positive) := by
  unfold UnpackedFloat.normalize
  split
  · rename_i hlt
    exact absurd (Int.compare_eq_lt.1 hlt) (Int.not_lt.2 hm)
  · exact .zero
  · exact isPositive_roundWithAccuracy ..

theorem IsPositive.add (hf : IsPositive f) (hg : IsPositive g) :
    IsPositive (UnpackedFloat.add spec f g) := by
  cases hf with
  | infinity => cases hg <;> exact .infinity
  | zero =>
    cases hg with
    | infinity => exact .infinity
    | zero => exact .zero
    | finite m e hm => exact .finite m e hm
  | finite m e hm =>
    cases hg with
    | infinity => exact .infinity
    | zero => exact .finite m e hm
    | finite m' e' hm' =>
      refine isPositive_normalize ?_ _
      exact Int.add_nonneg (Int.natCast_nonneg _) (Int.natCast_nonneg _)

theorem IsPositive.sq (hf : IsPositive f) : IsPositive (UnpackedFloat.mul spec f f) := by
  cases hf with
  | infinity => exact .infinity
  | zero => exact .zero
  | finite m e hm => exact isPositive_roundWithAccuracy ..

theorem IsPositive.mul_finite (hf : IsPositive f) (m : Nat) (e : Int) (hm : 0 < m) :
    IsPositive (UnpackedFloat.mul spec f (.finite .positive m e hm)) := by
  cases hf with
  | infinity => exact .infinity
  | zero => exact .zero
  | finite => exact isPositive_roundWithAccuracy ..

theorem IsPositive.sqrt (hf : IsPositive f) : IsPositive (UnpackedFloat.sqrt spec f) := by
  cases hf with
  | infinity => exact .infinity
  | zero => exact .zero
  | finite => exact isPositive_roundWithAccuracy ..

end

/-! ## Patterns -/

/-- The pattern of positive infinity. -/
def infinityBits : Nat := 0x7ff0000000000000

theorem toNat_packComponents (e : BitVec 11) (m : BitVec 52) :
    (packComponents .binary64 .positive e m).toNat = 2 ^ 52 * e.toNat + m.toNat := by
  have hor := Nat.two_pow_add_eq_or_of_lt m.isLt e.toNat
  rw [packComponents, BitVec.toNat_append, BitVec.toNat_append, Nat.shiftLeft_eq, Nat.mul_comm, hor]
  simp [Float.Model.UnpackedFloat.Sign.toBitVec]

/-- **Packing** gives a pattern that is not above infinity. -/
theorem IsPositive.toNat_pack_le {f : UnpackedFloat} (h : IsPositive f) :
    (f.pack .binary64).toNat ≤ infinityBits := by
  cases h with
  | infinity => decide
  | zero => decide
  | finite m e hm =>
    unfold UnpackedFloat.pack
    dsimp only
    split
    · decide
    -- the exponent is not the one of infinity
    rename_i hsmall
    split
    · rw [toNat_packComponents, BitVec.toNat_ofNat, infinityBits]
      have hm := (BitVec.ofNat 52 m).isLt
      have he := Nat.mod_le (e + (Format.binary64.exponentBias : Int) + 52).toNat (2 ^ 11)
      omega
    · rw [toNat_packComponents, infinityBits]
      have hm := (BitVec.ofNat 52 m).isLt
      simp
      omega

section
variable {b : BitVec Format.binary64.numBits}

theorem toNat_unpackMantissa : (unpackMantissa b).toNat = b.toNat % 2 ^ 52 := by
  simp [unpackMantissa]

theorem toNat_unpackExponent : (unpackExponent b).toNat = b.toNat / 2 ^ 52 % 2 ^ 11 := by
  simp [unpackExponent, Nat.shiftRight_eq_div_pow]

theorem toNat_unpackSign : (unpackSign b).toNat = b.toNat / 2 ^ 63 % 2 := by
  simp [unpackSign, Nat.shiftRight_eq_div_pow]

/-- **Unpacking** such a pattern gives a positive sign. -/
theorem isPositive_unpack (h : b.toNat ≤ infinityBits) :
    IsPositive (UnpackedFloat.unpack .binary64 b) := by
  rw [infinityBits] at h
  have hsign : unpackSign b = 0#1 := by
    apply BitVec.eq_of_toNat_eq
    rw [toNat_unpackSign]
    simp
    omega
  -- a larger fraction under the largest exponent would be a NaN
  have hmantissa : unpackExponent b = -1#_ → unpackMantissa b = 0#_ := by
    intro hexp
    have hexp := congrArg BitVec.toNat hexp
    apply BitVec.eq_of_toNat_eq
    rw [toNat_unpackExponent] at hexp
    rw [toNat_unpackMantissa]
    simp at hexp ⊢
    omega
  have hpositive : Float.Model.UnpackedFloat.Sign.ofBitVec 0#1 = .positive := rfl
  unfold UnpackedFloat.unpack
  dsimp only
  rw [hsign, hpositive]
  split
  · rename_i hexp
    rw [if_pos (hmantissa hexp)]
    exact .infinity
  · split
    · split
      · exact .zero
      · exact .finite ..
    · exact .finite ..

end

namespace Binary64

/-! ## Numbers -/

/-- Positive zero, a positive number or positive infinity. -/
def Nonneg (x : Binary64) : Prop := x.bits.toNat ≤ infinityBits

instance (x : Binary64) : Decidable x.Nonneg := inferInstanceAs (Decidable (_ ≤ _))

section
variable {x y : Binary64}

theorem Nonneg.magnitude_eq (hx : Nonneg x) : x.magnitude.toNat = x.bits.toNat := by
  rw [Nonneg, infinityBits] at hx
  rw [magnitude_toNat]
  omega

theorem Nonneg.isNaN_eq (hx : Nonneg x) : x.isNaN = false := by
  rw [isNaN, decide_eq_false_iff_not, UInt64.lt_iff_toNat_lt, hx.magnitude_eq]
  exact Nat.not_lt.2 hx

/-- A number that is not negative has its place on the line for itself. -/
theorem Nonneg.line_eq (hx : Nonneg x) : x.line = x.bits.toNat := by
  have hneg : ¬ x.isNegative = true := by
    rw [isNegative_iff]
    rw [Nonneg, infinityBits] at hx
    omega
  rw [line, if_neg hneg, hx.magnitude_eq]

theorem Nonneg.line_inj (hx : Nonneg x) (hy : Nonneg y) : x.line = y.line ↔ x = y := by
  rw [hx.line_eq, hy.line_eq, Int.natCast_inj, UInt64.toNat_inj]
  exact ⟨fun h => by cases x; cases y; cases h; rfl, congrArg bits⟩

theorem Nonneg.isPositive (hx : Nonneg x) : IsPositive x.toFloat.toModel.unpack :=
  isPositive_unpack (isPositive_unpack hx).toNat_pack_le

theorem nonneg_ofFloat {f : UnpackedFloat} (hf : IsPositive f) :
    Nonneg (ofFloat (.ofModel (.pack f))) := by
  have hpack : Nonneg ⟨(Float.ofModel (.pack f)).toBits⟩ := hf.toNat_pack_le
  rw [ofFloat, if_neg (Bool.eq_false_iff.1 hpack.isNaN_eq)]
  exact hpack

theorem Nonneg.lift₂ {op : Float → Float → Float} (hx : Nonneg x) (hy : Nonneg y) :
    Binary64.lift₂ op x y = ofFloat (op x.toFloat y.toFloat) := by
  rw [Binary64.lift₂, hx.isNaN_eq, hy.isNaN_eq]
  rfl

theorem Nonneg.add (hx : Nonneg x) (hy : Nonneg y) : Nonneg (x + y) := by
  change Nonneg (Binary64.lift₂ _ x y)
  rw [hx.lift₂ hy]
  exact nonneg_ofFloat (hx.isPositive.add hy.isPositive)

theorem Nonneg.sq (hx : Nonneg x) : Nonneg (x * x) := by
  change Nonneg (Binary64.lift₂ _ x x)
  rw [hx.lift₂ hx]
  exact nonneg_ofFloat hx.isPositive.sq

theorem Nonneg.sqrt (hx : Nonneg x) : Nonneg x.sqrt := by
  rw [Binary64.sqrt, hx.isNaN_eq]
  exact nonneg_ofFloat hx.isPositive.sqrt

theorem Nonneg.max (hx : Nonneg x) (hy : Nonneg y) : Nonneg (x.max y) := by
  rw [Binary64.max, hx.isNaN_eq, hy.isNaN_eq]
  simp only [Bool.false_eq_true, if_false]
  split <;> assumption

theorem nonneg_zero : Nonneg (ofNat 0) := by
  decide +kernel

theorem nonneg_one : Nonneg (ofNat 1) := by
  decide +kernel

theorem Nonneg.double (hx : Nonneg x) : Nonneg (x * ofNat 2) := by
  have hbits : ofNat 2 = ⟨0x4000000000000000⟩ := by decide +kernel
  rw [hbits]
  change Nonneg (Binary64.lift₂ _ x _)
  rw [hx.lift₂ (by decide)]
  exact nonneg_ofFloat (hx.isPositive.mul_finite (2 ^ 52) (-51) (by decide))

end

theorem nonneg_sum {xs : List Binary64} (h : ∀ x ∈ xs, Nonneg x) : Nonneg (Scalar.sum xs) := by
  refine List.foldlRecOn xs (· + ·) nonneg_zero ?_
  intro acc hacc x hx
  exact hacc.add (h x hx)

theorem nonneg_toScalar (x : BitString) : Nonneg x.toScalar := by
  refine List.foldlRecOn x _ nonneg_zero ?_
  intro acc hacc b _
  apply hacc.double.add
  split
  · exact nonneg_one
  · exact nonneg_zero

end Binary64

/-! ## Distances -/

theorem nonneg_of_mem_axisDistances {a b : Identifier} :
    ∀ x ∈ (axisDistances a b : List Binary64), x.Nonneg := by
  intro x hx
  obtain ⟨c, -, rfl⟩ := List.mem_map.1 hx
  exact Binary64.nonneg_toScalar _

/-- **No distance is negative or a NaN.** -/
theorem Metric.nonneg_between (m : Metric) (a b : Identifier) :
    (m.between a b : Binary64).Nonneg := by
  cases m with
  | manhattan => exact Binary64.nonneg_sum nonneg_of_mem_axisDistances
  | euclidean =>
    refine Binary64.Nonneg.sqrt (Binary64.nonneg_sum ?_)
    intro x hx
    obtain ⟨d, hd, rfl⟩ := List.mem_map.1 hx
    exact (nonneg_of_mem_axisDistances d hd).sq
  | chebyshev =>
    refine List.foldlRecOn _ _ Binary64.nonneg_zero ?_
    intro acc hacc x hx
    exact hacc.max (nonneg_of_mem_axisDistances x hx)
  | ring => exact Binary64.nonneg_toScalar _

end CubeRouting
