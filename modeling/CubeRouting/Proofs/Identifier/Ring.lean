/-
  The whole identifier as one number.

  `ringNumber` adds up the digits with their place values, digit 0 the most
  significant.

  * `toNat_ringBits`: it is what `ringBits` denotes;
  * `testBit_ringNumber`: its bits are the cells of the identifier, at the
    positions `ringPlace`;
  * `ringNumber_inj`: identifiers of one shape are numbered;
  * `exists_cell_of_ringNumber_lt`: of two numbers, the first cell that differs
    tells the smaller one.
-/
import CubeRouting.Identifier.Cells
import CubeRouting.Proofs.Identifier.Coordinates
import Mathlib.Algebra.BigOperators.Intervals
import Mathlib.Algebra.BigOperators.Ring.Finset
import Mathlib.Data.Nat.Bitwise

namespace CubeRouting

/-- The place value of the bit of digit `d` in dimension `c`, as an exponent of
    two, when the whole identifier is read as one number. -/
def Shape.ringPlace (s : Shape) (d c : Nat) : Nat := s.dimensions * (s.digits - 1 - d) + c

/-- A smaller number lacks the most significant bit in which the two differ. -/
theorem exists_testBit_of_lt {m n : Nat} (h : m < n) : ∃ i, m.testBit i = false ∧
    n.testBit i = true ∧ ∀ j, i < j → m.testBit j = n.testBit j := by
  have hne : m ^^^ n ≠ 0 := fun h0 => h.ne (Nat.xor_eq_zero_iff.1 h0)
  obtain ⟨i, hi, habove⟩ := Nat.exists_most_significant_bit hne
  have hsame : ∀ j, i < j → m.testBit j = n.testBit j := fun j hj => by
    simpa [Nat.testBit_xor] using habove j hj
  rw [Nat.testBit_xor] at hi
  cases hm : m.testBit i with
  | false => exact ⟨i, hm, by simpa [hm] using hi, hsame⟩
  | true =>
    have hn : n.testBit i = false := by simpa [hm] using hi
    exact absurd (Nat.lt_of_testBit i hn hm fun j hj => (hsame j hj).symm) h.asymm

namespace Identifier

open BitString (toNat)

variable {x y : Identifier} {c d d' c' i m : Nat}

/-! ## Digits -/

/-- The number that digit `d` denotes: dimension `c` is its bit `c`. -/
def digitNumber (x : Identifier) (d : Nat) : Nat := toNat (x.digitBits d).reverse

/-- In identifiers of few dimensions, digits are read as numbers. -/
theorem digitNat_eq_digitNumber (hD : x.dimensions < wordBits) (hd : d < x.digits) :
    x.digitNat d = .ok (x.digitNumber d) := by
  have hall : (x.digitBits d).take wordBits = x.digitBits d :=
    List.take_of_length_le (by rw [length_digitBits]; exact hD.le)
  simp only [digitNat, if_neg (Nat.not_le.2 hD), checkIndex, if_pos hd, digitWord, hall]
  rfl

theorem digitNumber_lt (x : Identifier) (d : Nat) : x.digitNumber d < 2 ^ x.dimensions := by
  have := BitString.toNat_lt (x.digitBits d).reverse
  rwa [List.length_reverse, length_digitBits] at this

theorem testBit_digitNumber (x : Identifier) (d : Nat) (hc : c < x.dimensions) :
    (x.digitNumber d).testBit c = x.bit d c := by
  rw [digitNumber, BitString.testBit_toNat_reverse]
  simp [digitBits, List.getD_eq_getElem?_getD, hc]

/-! ## The number -/

/-- The number that an identifier denotes: the digits with their place
    values. -/
def ringNumber (x : Identifier) : Nat :=
  ∑ d ∈ Finset.range x.digits, x.digitNumber d * 2 ^ (x.dimensions * (x.digits - 1 - d))

theorem toNat_leadingDigits_succ (x : Identifier) (m : Nat) :
    toNat (x.leadingDigits (m + 1)) =
      toNat (x.leadingDigits m) * 2 ^ x.dimensions + x.digitNumber m := by
  have hsucc : x.leadingDigits (m + 1) = x.leadingDigits m ++ (x.digitBits m).reverse := by
    rw [leadingDigits, List.range_succ, List.flatMap_append, List.flatMap_singleton, leadingDigits]
  rw [hsucc, BitString.toNat_append, List.length_reverse, length_digitBits, digitNumber]

/-- Each further digit moves all digits before it up by one place. -/
theorem toNat_leadingDigits (x : Identifier) (m : Nat) :
    toNat (x.leadingDigits m) =
      ∑ d ∈ Finset.range m, x.digitNumber d * 2 ^ (x.dimensions * (m - 1 - d)) := by
  induction m with
  | zero => rfl
  | succ m ih =>
    rw [toNat_leadingDigits_succ, ih, Finset.sum_range_succ, Finset.sum_mul, Nat.add_sub_cancel,
      Nat.sub_self, Nat.mul_zero, Nat.pow_zero, Nat.mul_one]
    congr 1
    refine Finset.sum_congr rfl fun d hd => ?_
    have hd := Finset.mem_range.1 hd
    rw [Nat.mul_assoc, ← Nat.pow_add, ← Nat.mul_succ, show (m - 1 - d).succ = m - d by omega]

/-- **The whole identifier denotes its number.** -/
theorem toNat_ringBits (x : Identifier) : toNat x.ringBits = x.ringNumber :=
  x.toNat_leadingDigits x.digits

theorem ringNumber_lt (x : Identifier) : x.ringNumber < 2 ^ x.bitCount := by
  have := BitString.toNat_lt x.ringBits
  rwa [toNat_ringBits, length_ringBits_eq_bitCount] at this

/-! ## Cells -/

/-- **The bits of the number are the cells** of the identifier. -/
theorem testBit_ringNumber (x : Identifier) (hd : d < x.digits) (hc : c < x.dimensions) :
    x.ringNumber.testBit (x.shape.ringPlace d c) = x.bit d c := by
  obtain ⟨rest, hrest, hbits⟩ := x.ringBits_eq_append (m := d + 1) hd
  have hplace : x.shape.ringPlace d c = rest.length + c := by
    rw [Shape.ringPlace, hrest, Nat.sub_sub, Nat.add_comm 1 d]
  rw [← toNat_ringBits, hbits, BitString.testBit_append, hplace, if_neg (by omega),
    Nat.add_sub_cancel_left, toNat_leadingDigits_succ, Nat.mul_comm,
    Nat.testBit_two_pow_mul_add _ (x.digitNumber_lt d), if_pos hc, testBit_digitNumber x d hc]

/-- Every bit of the number is a cell. -/
theorem exists_ringPlace_eq (s : Shape) (hi : i < s.bitCount) :
    ∃ d < s.digits, ∃ c < s.dimensions, s.ringPlace d c = i := by
  have hrow : i / s.dimensions < s.digits :=
    Nat.div_lt_of_lt_mul (by rwa [Nat.mul_comm])
  have hlast : i / s.dimensions ≤ s.digits - 1 := Nat.le_sub_one_of_lt hrow
  have hdigit : s.digits - 1 - i / s.dimensions < s.digits :=
    Nat.lt_of_le_of_lt (Nat.sub_le _ _) (Nat.sub_one_lt_of_lt s.digits_pos)
  refine ⟨_, hdigit, i % s.dimensions, Nat.mod_lt _ s.dimensions_pos, ?_⟩
  rw [Shape.ringPlace, Nat.sub_sub_self hlast, Nat.div_add_mod]

/-- Earlier digits have higher places, and within a digit the higher
    dimensions. -/
theorem ringPlace_lt_iff (s : Shape) (hd' : d' < s.digits) (hc : c < s.dimensions)
    (hc' : c' < s.dimensions) (hd : d < s.digits) :
    s.ringPlace d c < s.ringPlace d' c' ↔ d' < d ∨ d' = d ∧ c < c' := by
  have hrow : ∀ {d d' : Nat}, d' < d → d < s.digits →
      s.dimensions * (s.digits - 1 - d) + s.dimensions ≤ s.dimensions * (s.digits - 1 - d') :=
    fun hlt hd => by
      rw [← Nat.mul_succ]
      exact Nat.mul_le_mul_left _ (by omega)
  rw [Shape.ringPlace, Shape.ringPlace]
  rcases Nat.lt_trichotomy d' d with hlt | rfl | hlt
  · have := hrow hlt hd
    omega
  · omega
  · have := hrow hlt hd'
    omega

section
variable (hs : x.shape = y.shape)
include hs

/-- **Identifiers of one shape are numbered.** -/
theorem ringNumber_inj (h : x.ringNumber = y.ringNumber) : x = y := by
  refine ext_bits hs fun d hd c hc => ?_
  rw [← testBit_ringNumber x hd hc, h, hs]
  exact testBit_ringNumber y (lt_of_lt_of_eq hd (congrArg Shape.digits hs))
    (lt_of_lt_of_eq hc (congrArg Shape.dimensions hs))

/-- **The first cell that differs decides** which number is smaller. -/
theorem exists_cell_of_ringNumber_lt (h : x.ringNumber < y.ringNumber) :
    ∃ d < x.digits, ∃ c < x.dimensions, x.bit d c = false ∧ y.bit d c = true ∧
      ∀ d' < x.digits, ∀ c' < x.dimensions, x.shape.ringPlace d c < x.shape.ringPlace d' c' →
        x.bit d' c' = y.bit d' c' := by
  have hy : ∀ d < x.digits, ∀ c < x.dimensions,
      y.ringNumber.testBit (x.shape.ringPlace d c) = y.bit d c := fun d hd c hc => by
    rw [hs]
    exact testBit_ringNumber y (lt_of_lt_of_eq hd (congrArg Shape.digits hs))
      (lt_of_lt_of_eq hc (congrArg Shape.dimensions hs))
  obtain ⟨i, hxi, hyi, habove⟩ := exists_testBit_of_lt h
  have hi : i < y.bitCount := by
    have hpow := lt_of_le_of_lt (Nat.ge_two_pow_of_testBit hyi) y.ringNumber_lt
    exact (Nat.pow_lt_pow_iff_right Nat.one_lt_two).1 hpow
  rw [bitCount, ← hs] at hi
  obtain ⟨d, hd, c, hc, rfl⟩ := exists_ringPlace_eq x.shape hi
  refine ⟨d, hd, c, hc, ?_, ?_, fun d' hd' c' hc' hlt => ?_⟩
  · rwa [testBit_ringNumber x hd hc] at hxi
  · rwa [hy d hd c hc] at hyi
  · rw [← testBit_ringNumber x hd' hc', ← hy d' hd' c' hc']
    exact habove _ hlt

end

end Identifier

end CubeRouting
