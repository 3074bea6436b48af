/-
  Coordinates as numbers.

  `leadingBits` is the first digits of a coordinate, and `leadingDigits` the
  first digits of the whole identifier in the order of `ringBits`.

  * `coordinateBits_eq_append`, `ringBits_eq_append`: a coordinate and the
    whole identifier start with them;
  * `SharesPrefix.leadingBits_eq`, `SharesPrefix.leadingDigits_eq`: they agree
    for identifiers that share a prefix;
  * `leadingBits_step`, `exists_step_leadingBits`: a unit step at digit `d` adds
    or subtracts one from the number of the first `d + 1` digits, modulo the
    number of such strings, and leaves the other coordinates alone.
-/
import CubeRouting.Proofs.BitString
import CubeRouting.Proofs.Identifier.Steps
import Mathlib.Data.Int.ModEq

namespace CubeRouting

namespace Identifier

open BitString (toNat)

variable {x y : Identifier} {up : Bool} {c d m : Nat}

/-! ## First digits -/

/-- The first `m` digits of coordinate `c`. -/
def leadingBits (x : Identifier) (c m : Nat) : BitString := (List.range m).map (x.bit · c)

/-- The first `m` digits in order, each with the highest dimension first. -/
def leadingDigits (x : Identifier) (m : Nat) : BitString :=
  (List.range m).flatMap fun d => (x.digitBits d).reverse

@[simp] theorem length_leadingBits (x : Identifier) (c m : Nat) :
    (x.leadingBits c m).length = m := by
  rw [leadingBits, List.length_map, List.length_range]

theorem length_flatMap_digitBits (x : Identifier) (ds : List Nat) :
    (ds.flatMap fun d => (x.digitBits d).reverse).length = x.dimensions * ds.length := by
  induction ds with
  | nil => rfl
  | cons d ds ih =>
    rw [List.flatMap_cons, List.length_append, ih, List.length_reverse, length_digitBits,
      List.length_cons, Nat.mul_succ, Nat.add_comm]

theorem toNat_leadingBits_succ (x : Identifier) (c m : Nat) :
    toNat (x.leadingBits c (m + 1)) = 2 * toNat (x.leadingBits c m) + (x.bit m c).toNat := by
  rw [leadingBits, List.range_succ, List.map_append]
  exact BitString.toNat_concat _ _

theorem toNat_coordinateBits_lt (x : Identifier) (c : Nat) :
    toNat (x.coordinateBits c) < 2 ^ x.digits := by
  have hlt := BitString.toNat_lt (x.coordinateBits c)
  rwa [length_coordinateBits] at hlt

/-- Identifiers of one shape are equal if their coordinates are. -/
theorem ext_coordinateBits (hs : x.shape = y.shape)
    (h : ∀ c < x.dimensions, x.coordinateBits c = y.coordinateBits c) : x = y := by
  refine ext_bits hs fun d hd c hc => ?_
  have hlt : d < (x.coordinateBits c).length := by rwa [length_coordinateBits]
  have hbit := List.getElem_of_eq (h c hc) hlt
  simpa [coordinateBits] using hbit

/-- A coordinate starts with its first digits. -/
theorem coordinateBits_eq_append (x : Identifier) (c : Nat) (hm : m ≤ x.digits) :
    ∃ rest, rest.length = x.digits - m ∧ x.coordinateBits c = x.leadingBits c m ++ rest := by
  obtain ⟨r, hr⟩ := Nat.exists_eq_add_of_le hm
  refine ⟨((List.range r).map (m + ·)).map (x.bit · c), ?_, ?_⟩
  · rw [List.length_map, List.length_map, List.length_range]
    omega
  · rw [coordinateBits, hr, List.range_add, List.map_append]
    rfl

/-- The whole identifier starts with its first digits. -/
theorem ringBits_eq_append (x : Identifier) (hm : m ≤ x.digits) :
    ∃ rest, rest.length = x.dimensions * (x.digits - m) ∧
      x.ringBits = x.leadingDigits m ++ rest := by
  obtain ⟨r, hr⟩ := Nat.exists_eq_add_of_le hm
  refine ⟨((List.range r).map (m + ·)).flatMap fun d => (x.digitBits d).reverse, ?_, ?_⟩
  · rw [length_flatMap_digitBits, List.length_map, List.length_range, hr, Nat.add_sub_cancel_left]
  · rw [ringBits, hr, List.range_add, List.flatMap_append]
    rfl

theorem length_ringBits (x : Identifier) : x.ringBits.length = x.dimensions * x.digits := by
  rw [ringBits, length_flatMap_digitBits, List.length_range]

theorem length_ringBits_eq_bitCount (x : Identifier) : x.ringBits.length = x.bitCount := by
  rw [length_ringBits, bitCount, Shape.bitCount, Nat.mul_comm]

theorem SharesPrefix.leadingBits_eq (h : x.SharesPrefix y m) (hD : x.dimensions = y.dimensions)
    (hc : c < x.dimensions) : x.leadingBits c m = y.leadingBits c m :=
  List.map_congr_left fun _ hd => h.bit_eq hD (List.mem_range.1 hd) hc

theorem SharesPrefix.leadingDigits_eq (h : x.SharesPrefix y m) :
    x.leadingDigits m = y.leadingDigits m := by
  rw [leadingDigits, leadingDigits, List.flatMap_def, List.flatMap_def]
  congr 1
  exact List.map_congr_left fun d hd => by rw [h d (List.mem_range.1 hd)]

/-! ## Unit steps -/

/-- The unit that a step adds. -/
def unitOf (up : Bool) : Int := if up then 1 else -1

theorem natAbs_unitOf (up : Bool) : (unitOf up).natAbs = 1 := by cases up <;> rfl

/-- A digit is flipped and the digits before it take the carry: together this
    adds one unit. -/
theorem modEq_of_carry {u v n : Int} {b : Bool}
    (h : v ≡ u + (if b = up then unitOf up else 0) [ZMOD n]) :
    2 * v + (!b).toNat ≡ 2 * u + b.toNat + unitOf up [ZMOD 2 * n] := by
  have hbit : ((!b).toNat : Int) =
      b.toNat + unitOf up - 2 * (if b = up then unitOf up else 0) := by
    cases b <;> cases up <;> rfl
  rw [hbit]
  convert (h.mul_left' (c := 2)).add_right _ using 1
  omega

/-- **A step adds one unit**: if the bits of coordinate `c` are flipped that the
    carry of a step at digit `d` reaches, the number of its first `d + 1`
    digits changes by one unit, modulo the number of such strings. -/
theorem leadingBits_step (h : ∀ j ≤ d, y.bit j c =
      if j ∈ x.carryRun c up d then !x.bit j c else x.bit j c) :
    (toNat (y.leadingBits c (d + 1)) : Int) ≡
      toNat (x.leadingBits c (d + 1)) + unitOf up [ZMOD (2 ^ (d + 1) : Nat)] := by
  induction d with
  | zero =>
    have hlast : y.bit 0 c = !x.bit 0 c := h 0 (Nat.le_refl 0)
    rw [toNat_leadingBits_succ, toNat_leadingBits_succ, hlast]
    push_cast
    exact modEq_of_carry Int.modEq_one
  | succ d ih =>
    have hlast : y.bit (d + 1) c = !x.bit (d + 1) c := by
      rw [h _ (Nat.le_refl _),
        if_pos ((mem_carryRun ..).2 ⟨Nat.le_refl _, fun i hi hd => by omega⟩)]
    have hcarry : (toNat (y.leadingBits c (d + 1)) : Int) ≡ toNat (x.leadingBits c (d + 1)) +
        (if x.bit (d + 1) c = up then unitOf up else 0) [ZMOD (2 ^ (d + 1) : Nat)] := by
      rw [carryRun] at h
      split
      · rename_i hb
        refine ih fun j hj => ?_
        rw [h j (by omega), if_pos hb]
        simp [show j ≠ d + 1 by omega]
      · rename_i hb
        -- the carry stops at the last digit
        have hsame : y.leadingBits c (d + 1) = x.leadingBits c (d + 1) := by
          refine List.map_congr_left fun j hj => ?_
          have hj := List.mem_range.1 hj
          rw [h j (by omega), if_neg hb, if_neg (by simp; omega)]
        rw [hsame, Int.add_zero]
    rw [toNat_leadingBits_succ x c (d + 1), toNat_leadingBits_succ y c (d + 1), hlast, Nat.pow_succ,
      Nat.mul_comm (2 ^ (d + 1))]
    exact_mod_cast modEq_of_carry hcarry

/-- **A step by its coordinates**: one changes by a unit, all others stay. -/
theorem exists_step_leadingBits (x : Identifier) (up : Bool) (hc : c < x.dimensions)
    (hd : d < x.digits) : ∃ y, x.step up c d = .ok y ∧ y.shape = x.shape ∧
      (toNat (y.leadingBits c (d + 1)) : Int) ≡
        toNat (x.leadingBits c (d + 1)) + unitOf up [ZMOD (2 ^ (d + 1) : Nat)] ∧
      ∀ i < x.dimensions, i ≠ c → y.leadingBits i (d + 1) = x.leadingBits i (d + 1) := by
  obtain ⟨y, hy, hs, hbits⟩ := exists_step x up hc hd
  refine ⟨y, hy, hs, leadingBits_step fun j hj => ?_, fun i hi hne => ?_⟩
  · rw [hbits j (by omega) c hc]
    simp only [true_and]
  · refine List.map_congr_left fun j hj => ?_
    have hj := List.mem_range.1 hj
    rw [hbits j (by omega) i hi, if_neg fun h => hne h.1]

end Identifier

end CubeRouting
