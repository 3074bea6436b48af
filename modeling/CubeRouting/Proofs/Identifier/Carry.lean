/-
  Unit steps as translations of the torus.

  A coordinate is a point on the circle of all numbers with its digits, and a
  step at digit `d` moves it by the weight of that digit.

  * `IsTranslate.trans`, `IsTranslate.unique`: translations add up, and a point
    has one image under each;
  * `isTranslate_of_step`: a step is the translation by one unit at its digit;
  * `carry_arithmetic`: what steps do to the numbers, and what follows for steps
    after each other.
-/
import CubeRouting.Proofs.Identifier.Coordinates
import Mathlib.Algebra.Group.Pi.Lemmas
import Mathlib.Tactic.Ring

namespace CubeRouting

namespace Identifier

open BitString (toNat)

variable {x y z : Identifier} {up up' : Bool} {c d c' d' : Nat} {δ ε : Nat → Int}

/-! ## Translations -/

/-- `y` is `x` moved by `δ i` along each dimension `i`. -/
structure IsTranslate (x y : Identifier) (δ : Nat → Int) : Prop where
  shape : y.shape = x.shape
  number : ∀ i < x.dimensions, (toNat (y.coordinateBits i) : Int) ≡
    toNat (x.coordinateBits i) + δ i [ZMOD (2 ^ x.digits : Nat)]

/-- Identifiers of one shape are equal if their coordinates are equal as
    numbers. -/
theorem ext_coordinates (hs : x.shape = y.shape)
    (h : ∀ i < x.dimensions, toNat (x.coordinateBits i) = toNat (y.coordinateBits i)) : x = y := by
  refine ext_coordinateBits hs fun i hi => BitString.toNat_inj ?_ (h i hi)
  rw [length_coordinateBits, length_coordinateBits, digits, hs]

section
variable (h : IsTranslate x y δ)
include h

theorem IsTranslate.dimensions_eq : y.dimensions = x.dimensions := congrArg Shape.dimensions h.shape

theorem IsTranslate.digits_eq : y.digits = x.digits := congrArg Shape.digits h.shape

theorem IsTranslate.number_eq {i : Nat} (hi : i < x.dimensions) :
    (toNat (y.coordinateBits i) : Int) =
      (toNat (x.coordinateBits i) + δ i) % (2 ^ x.digits : Nat) := by
  have hlt := y.toNat_coordinateBits_lt i
  rw [h.digits_eq] at hlt
  rw [← (h.number i hi).eq]
  exact (Int.emod_eq_of_lt (by omega) (by omega)).symm

theorem IsTranslate.trans (h' : IsTranslate y z ε) : IsTranslate x z (δ + ε) where
  shape := h'.shape.trans h.shape
  number i hi := by
    have hz := h'.number i (hi.trans_eq h.dimensions_eq.symm)
    rw [h.digits_eq] at hz
    calc (toNat (z.coordinateBits i) : Int)
        ≡ toNat (y.coordinateBits i) + ε i [ZMOD _] := hz
      _ ≡ toNat (x.coordinateBits i) + δ i + ε i [ZMOD _] := (h.number i hi).add_right _
      _ = toNat (x.coordinateBits i) + (δ + ε) i := by rw [Pi.add_apply, add_assoc]

/-- **A translation has one image** of each point. -/
theorem IsTranslate.unique (h' : IsTranslate x z δ) : y = z := by
  refine ext_coordinates (h.shape.trans h'.shape.symm) fun i hi => ?_
  have hi := hi.trans_eq h.dimensions_eq
  exact_mod_cast (h.number_eq hi).trans (h'.number_eq hi).symm

end

theorem IsTranslate.refl (x : Identifier) : IsTranslate x x 0 :=
  ⟨rfl, fun i _ => by rw [Pi.zero_apply, add_zero]⟩

/-! ## Steps -/

/-- Coordinates that agree from digit `m` on end in the same string. -/
theorem coordinateBits_eq_append_of_agree (hs : y.shape = x.shape) {m : Nat} (hm : m ≤ x.digits)
    (h : ∀ j < x.digits, m ≤ j → y.bit j c = x.bit j c) :
    ∃ rest : BitString, rest.length = x.digits - m ∧
      x.coordinateBits c = x.leadingBits c m ++ rest ∧
      y.coordinateBits c = y.leadingBits c m ++ rest := by
  have hn : y.digits = x.digits := congrArg Shape.digits hs
  obtain ⟨rest, hlen, hx⟩ := x.coordinateBits_eq_append c hm
  obtain ⟨rest', hlen', hy⟩ := y.coordinateBits_eq_append c (hm.trans_eq hn.symm)
  refine ⟨rest, hlen, hx, ?_⟩
  rw [hy, List.ext_getElem (hlen'.trans ((congrArg (· - m) hn).trans hlen.symm)) ?_]
  intro k hk hk'
  have hj : m + k < x.digits := by omega
  have hxlt : m + k < (x.coordinateBits c).length := by rwa [length_coordinateBits]
  have hylt : m + k < (y.coordinateBits c).length := by rwa [length_coordinateBits, hn]
  have hxk : (x.coordinateBits c)[m + k] = rest[k] := by simp [hx]
  have hyk : (y.coordinateBits c)[m + k] = rest'[k] := by simp [hy]
  rw [← hxk, ← hyk]
  simpa [coordinateBits] using h (m + k) hj (Nat.le_add_right m k)

/-- **A change of the first digits** is one of the number, as many times larger
    as there are numbers of the other digits. -/
theorem number_of_leadingBits (hs : y.shape = x.shape) {m : Nat} (hm : m ≤ x.digits)
    (hagree : ∀ j < x.digits, m ≤ j → y.bit j c = x.bit j c) {u : Int}
    (h : (toNat (y.leadingBits c m) : Int) ≡ toNat (x.leadingBits c m) + u [ZMOD (2 ^ m : Nat)]) :
    (toNat (y.coordinateBits c) : Int) ≡
      toNat (x.coordinateBits c) + u * (2 ^ (x.digits - m) : Nat) [ZMOD (2 ^ x.digits : Nat)] := by
  obtain ⟨rest, hlen, hx, hy⟩ := coordinateBits_eq_append_of_agree hs hm hagree
  have hpow : (2 ^ x.digits : Nat) = 2 ^ m * 2 ^ rest.length := by
    rw [← Nat.pow_add, hlen, Nat.add_sub_cancel' hm]
  have hscaled := (h.mul_right' (c := (2 ^ rest.length : Nat))).add_right (toNat rest)
  rw [hx, hy, BitString.toNat_append, BitString.toNat_append, ← hlen, hpow]
  push_cast at hscaled ⊢
  convert hscaled using 1
  ring

/-- The translation by one unit at digit `d` of coordinate `c`, of `n` digits. -/
def unitAt (up : Bool) (n c d : Nat) : Nat → Int :=
  Pi.single c (unitOf up * (2 ^ (n - 1 - d) : Nat))

section
variable (hc : c < x.dimensions) (hd : d < x.digits)
include hc hd

/-- **A step is a translation** by one unit at its digit. -/
theorem exists_step_translate (up : Bool) : ∃ y, x.step up c d = .ok y ∧
    IsTranslate x y (unitAt up x.digits c d) ∧
    (∀ i < x.dimensions, i ≠ c → y.coordinateBits i = x.coordinateBits i) ∧
    ∀ j < x.digits, d < j → y.digitBits j = x.digitBits j := by
  obtain ⟨y, hy, hs, hbits⟩ := exists_step x up hc hd
  have hother : ∀ i < x.dimensions, i ≠ c → y.coordinateBits i = x.coordinateBits i := by
    intro i hi hne
    rw [coordinateBits, coordinateBits, digits, hs]
    refine List.map_congr_left fun j hj => ?_
    rw [hbits j (List.mem_range.1 hj) i hi, if_neg fun h => hne h.1]
  have hlater : ∀ j < x.digits, d < j → ∀ i < x.dimensions, y.bit j i = x.bit j i := by
    intro j hj hdj i hi
    refine (hbits j hj i hi).trans (if_neg fun h => ?_)
    exact absurd ((mem_carryRun ..).1 h.2).1 (by omega)
  have hlead : (toNat (y.leadingBits c (d + 1)) : Int) ≡
      toNat (x.leadingBits c (d + 1)) + unitOf up [ZMOD (2 ^ (d + 1) : Nat)] :=
    leadingBits_step fun j hj => by
      rw [hbits j (by omega) c hc]
      simp only [true_and]
  have hnumber := number_of_leadingBits hs hd (fun j hj hdj => hlater j hj hdj c hc) hlead
  refine ⟨y, hy, ⟨hs, fun i hi => ?_⟩, hother, fun j hj hdj => ?_⟩
  · by_cases hic : i = c
    · rwa [hic, unitAt, Pi.single_eq_same, Nat.sub_sub, Nat.add_comm 1]
    · rw [hother i hi hic, unitAt, Pi.single_eq_of_ne hic, add_zero]
  · rw [digitBits, digitBits, dimensions, hs]
    exact List.map_congr_left fun i hi => hlater j hj hdj i (List.mem_range.1 hi)

theorem isTranslate_of_step (h : x.step up c d = .ok y) :
    IsTranslate x y (unitAt up x.digits c d) := by
  obtain ⟨z, hz, htranslate, -⟩ := exists_step_translate hc hd up
  obtain rfl : z = y := Except.ok.inj (hz.symm.trans h)
  exact htranslate

end

/-- **Which steps there are.** -/
theorem exists_step_iff : (∃ y, x.step up c d = .ok y) ↔ c < x.dimensions ∧ d < x.digits := by
  constructor
  · rintro ⟨y, hy⟩
    simp only [step, checkIndex] at hy
    split at hy
    · rename_i hc
      rw [ok_bind] at hy
      split at hy
      · rename_i hd
        exact ⟨hc, hd⟩
      · cases hy
    · cases hy
  · rintro ⟨hc, hd⟩
    obtain ⟨y, hy, -⟩ := exists_step x up hc hd
    exact ⟨y, hy⟩

/-- A step after a step adds its unit. -/
theorem isTranslate_of_step_step (h : x.step up c d = .ok y) (h' : y.step up' c' d' = .ok z) :
    IsTranslate x z (unitAt up x.digits c d + unitAt up' x.digits c' d') := by
  obtain ⟨hc, hd⟩ := exists_step_iff.1 ⟨y, h⟩
  obtain ⟨hc', hd'⟩ := exists_step_iff.1 ⟨z, h'⟩
  have hxy := isTranslate_of_step hc hd h
  have hyz := isTranslate_of_step hc' hd' h'
  rw [hxy.digits_eq] at hyz
  exact hxy.trans hyz

/-- A step can still be made after another one. -/
theorem exists_step_step (h : x.step up c d = .ok y) (hc : c' < x.dimensions) (hd : d' < x.digits)
    (up' : Bool) : ∃ z, y.step up' c' d' = .ok z := by
  obtain ⟨hcx, hdx⟩ := exists_step_iff.1 ⟨y, h⟩
  have hxy := isTranslate_of_step hcx hdx h
  exact exists_step_iff.2 ⟨hc.trans_eq hxy.dimensions_eq.symm, hd.trans_eq hxy.digits_eq.symm⟩

/-- **Steps in the two directions undo each other.** -/
theorem step_undo (h : x.step up c d = .ok y) : y.step (!up) c d = .ok x := by
  obtain ⟨hc, hd⟩ := exists_step_iff.1 ⟨y, h⟩
  obtain ⟨z, hz⟩ := exists_step_step h hc hd (!up)
  have hsum : unitAt up x.digits c d + unitAt (!up) x.digits c d = 0 := by
    rw [unitAt, unitAt, ← Pi.single_add, ← add_mul]
    cases up <;> simp [unitOf]
  have htranslate := isTranslate_of_step_step h hz
  rw [hsum] at htranslate
  rw [hz, htranslate.unique (IsTranslate.refl x)]

/-- **Two steps have one result in either order.** -/
theorem step_comm (h : x.step up c d = .ok y) (h' : x.step up' c' d' = .ok z) :
    ∃ u, y.step up' c' d' = .ok u ∧ z.step up c d = .ok u := by
  obtain ⟨hc, hd⟩ := exists_step_iff.1 ⟨y, h⟩
  obtain ⟨hc', hd'⟩ := exists_step_iff.1 ⟨z, h'⟩
  obtain ⟨u, hu⟩ := exists_step_step h hc' hd' up'
  obtain ⟨v, hv⟩ := exists_step_step h' hc hd up
  have hxu := isTranslate_of_step_step h hu
  have hxv := isTranslate_of_step_step h' hv
  rw [add_comm] at hxv
  exact ⟨u, hu, by rw [hv, hxv.unique hxu]⟩

/-- **Two steps at a digit are one at the digit before it.** -/
theorem step_step (h : x.step up c (d + 1) = .ok y) :
    y.step up c (d + 1) = x.step up c d := by
  obtain ⟨hc, hd⟩ := exists_step_iff.1 ⟨y, h⟩
  obtain ⟨z, hz⟩ := exists_step_step h hc hd up
  obtain ⟨u, hu, htranslate, -⟩ := exists_step_translate hc (Nat.lt_of_succ_lt hd) up
  have hsum : unitAt up x.digits c (d + 1) + unitAt up x.digits c (d + 1) =
      unitAt up x.digits c d := by
    rw [unitAt, unitAt, ← Pi.single_add, ← mul_add, ← Nat.cast_add, ← Nat.two_mul, ← Nat.pow_succ']
    congr 4
    omega
  have hxz := isTranslate_of_step_step h hz
  rw [hsum] at hxz
  rw [hz, hu, hxz.unique htranslate]

/-! ## Carry arithmetic -/

/-- `y` is `x` with `k` added to coordinate `c`, and with all digits after
    digit `d` as they were. -/
structure IsCarried (x y : Identifier) (c d : Nat) (k : Int) : Prop where
  shape : y.shape = x.shape
  number : (toNat (y.coordinateBits c) : Int) =
    (toNat (x.coordinateBits c) + k) % (2 ^ x.digits : Nat)
  others : ∀ i < x.dimensions, i ≠ c → y.coordinateBits i = x.coordinateBits i
  later : ∀ j < x.digits, d < j → y.digitBits j = x.digitBits j

theorem isCarried_of_step (h : x.step up c d = .ok y) :
    IsCarried x y c d (unitOf up * (2 ^ (x.digits - 1 - d) : Nat)) := by
  obtain ⟨hc, hd⟩ := exists_step_iff.1 ⟨y, h⟩
  obtain ⟨z, hz, htranslate, hothers, hlater⟩ := exists_step_translate hc hd up
  obtain rfl : z = y := Except.ok.inj (hz.symm.trans h)
  refine ⟨htranslate.shape, ?_, hothers, hlater⟩
  rw [htranslate.number_eq hc, unitAt, Pi.single_eq_same]

/-- **Steps are additions**: a step up or down at digit `d` of coordinate `c`
    exists if there is such a digit, and adds or subtracts the weight of the
    digit, modulo the number of coordinates; nothing else changes.  The two undo
    each other, steps commute, and two at a digit are one at the digit
    before. -/
theorem carry_arithmetic (x : Identifier) (c d : Nat) :
    ((∃ y, x.stepUp c d = .ok y) ↔ c < x.dimensions ∧ d < x.digits) ∧
    ((∃ y, x.stepDown c d = .ok y) ↔ c < x.dimensions ∧ d < x.digits) ∧
    (∀ y, x.stepUp c d = .ok y →
      IsCarried x y c d (2 ^ (x.digits - 1 - d)) ∧ y.stepDown c d = .ok x) ∧
    (∀ y, x.stepDown c d = .ok y →
      IsCarried x y c d (-2 ^ (x.digits - 1 - d)) ∧ y.stepUp c d = .ok x) ∧
    (∀ (up up' : Bool) (c' d' : Nat) (y z : Identifier),
      x.step up c d = .ok y → x.step up' c' d' = .ok z →
        ∃ u, y.step up' c' d' = .ok u ∧ z.step up c d = .ok u) ∧
    ∀ (up : Bool) (y : Identifier), 1 ≤ d → x.step up c d = .ok y →
      y.step up c d = x.step up c (d - 1) := by
  refine ⟨exists_step_iff, exists_step_iff, fun y hy => ⟨?_, step_undo hy⟩,
    fun y hy => ⟨?_, step_undo hy⟩, fun _ _ _ _ _ _ => step_comm, fun up y hd hy => ?_⟩
  · simpa [unitOf] using isCarried_of_step hy
  · simpa [unitOf] using isCarried_of_step hy
  · obtain ⟨e, rfl⟩ := Nat.exists_eq_add_of_le' hd
    exact step_step hy

/-- A step up from the last point of a coordinate leads to the first one. -/
theorem carry_arithmetic_wraparound :
    let x : Identifier := .ofFn (.mk 2 3) (· % 2 == 0)
    ∃ y z, x.stepUp 0 2 = .ok y ∧ x.stepDown 1 0 = .ok z ∧
      toNat (x.coordinateBits 0) = 7 ∧ toNat (y.coordinateBits 0) = 0 ∧
      y.coordinateBits 1 = x.coordinateBits 1 ∧ y.stepDown 0 2 = .ok x ∧
      (∃ u, y.stepDown 1 0 = .ok u ∧ z.stepUp 0 2 = .ok u) ∧ y.stepUp 0 2 = x.stepUp 0 1 := by
  intro x
  obtain ⟨hiff, -, hup, -, hcomm, htwice⟩ := carry_arithmetic x 0 2
  obtain ⟨y, hy⟩ := hiff.2 (by decide)
  obtain ⟨z, hz⟩ := (carry_arithmetic x 1 0).2.1.2 (by decide)
  obtain ⟨hcarried, hundo⟩ := hup y hy
  have hseven : toNat (x.coordinateBits 0) = 7 := by decide
  have hzero : (toNat (y.coordinateBits 0) : Int) = (7 + 2 ^ 0) % (2 ^ 3 : Nat) := by
    rw [hcarried.number, hseven]
    rfl
  exact ⟨y, z, hy, hz, hseven, by exact_mod_cast hzero, hcarried.others 1 (by decide) (by decide),
    hundo, hcomm true false 1 0 y z hy hz, htwice true y (by decide) hy⟩

end Identifier

end CubeRouting
