/-
  The bits that a unit step changes.

  `mem_carryRun` says which digits the carry of a step reaches, and
  `exists_step` what the bits are after it.  A step at digit `d` of
  coordinate `c` always flips the bit at `d` (`isStep_of_step`), and either the
  step up or the step down flips no other bit (`exists_short_step`).
-/
import CubeRouting.Proofs.Identifier.Bits

namespace CubeRouting

namespace Identifier

variable {x y : Identifier} {up : Bool} {c d : Nat}

/-- The carry reaches a digit if all digits after it, up to the one of the
    step, pass it on. -/
theorem mem_carryRun (x : Identifier) (c : Nat) (up : Bool) (d j : Nat) :
    j ∈ x.carryRun c up d ↔ j ≤ d ∧ ∀ i, j < i → i ≤ d → x.bit i c = up := by
  induction d with
  | zero =>
    simp only [carryRun, List.mem_singleton]
    exact ⟨by rintro rfl; exact ⟨Nat.le_refl 0, fun i h h' => by omega⟩, fun h => by omega⟩
  | succ d ih =>
    rw [carryRun]
    split
    · rename_i hbit
      rw [List.mem_cons, ih]
      constructor
      · rintro (rfl | ⟨hj, hrun⟩)
        · exact ⟨Nat.le_refl _, fun i h h' => by omega⟩
        · refine ⟨by omega, fun i h h' => ?_⟩
          rcases Nat.le_succ_iff.1 h' with h' | rfl
          · exact hrun i h h'
          · exact hbit
      · rintro ⟨hj, hrun⟩
        rcases Nat.le_succ_iff.1 hj with hj | rfl
        · exact Or.inr ⟨hj, fun i h h' => hrun i h (by omega)⟩
        · exact Or.inl rfl
    · rename_i hbit
      rw [List.mem_singleton]
      constructor
      · rintro rfl
        exact ⟨Nat.le_refl _, fun i h h' => by omega⟩
      · rintro ⟨hj, hrun⟩
        rcases Nat.le_succ_iff.1 hj with hj | rfl
        · exact absurd (hrun (d + 1) (by omega) (Nat.le_refl _)) hbit
        · rfl

/-- **The bits after a step**: those that the carry reaches are flipped. -/
theorem exists_step (x : Identifier) (up : Bool) (hc : c < x.dimensions) (hd : d < x.digits) :
    ∃ y, x.step up c d = .ok y ∧ y.shape = x.shape ∧
      ∀ j < x.digits, ∀ i < x.dimensions,
        y.bit j i = if i = c ∧ j ∈ x.carryRun c up d then !x.bit j i else x.bit j i := by
  refine ⟨x.overwrite ((x.carryRun c up d).map (·, c)) fun d c => !x.bit d c, ?_, rfl,
    fun j hj i hi => ?_⟩
  · simp only [step, checkIndex, hc, hd, if_true]
    rfl
  · rw [bit_overwrite x _ _ (by simpa using fun _ _ => hc) hj hi]
    have hmem : (j, i) ∈ (x.carryRun c up d).map (·, c) ↔ i = c ∧ j ∈ x.carryRun c up d := by
      simp only [List.mem_map, Prod.mk.injEq]
      exact ⟨by rintro ⟨_, h, rfl, rfl⟩; exact ⟨rfl, h⟩, fun ⟨h, h'⟩ => ⟨j, h', rfl, h.symm⟩⟩
    simp only [hmem]

/-- What a step leaves and what it flips. -/
structure IsStep (x y : Identifier) (c d : Nat) : Prop where
  shape : y.shape = x.shape
  /-- The bit of the step is flipped. -/
  bit_self : y.bit d c = !x.bit d c
  /-- Other dimensions stay as they are. -/
  bit_other : ∀ j < x.digits, ∀ i < x.dimensions, i ≠ c → y.bit j i = x.bit j i

theorem isStep_of_step (h : x.step up c d = .ok y) (hc : c < x.dimensions)
    (hd : d < x.digits) : IsStep x y c d := by
  obtain ⟨z, hz, hs, hbits⟩ := exists_step x up hc hd
  obtain rfl : z = y := Except.ok.inj (hz.symm.trans h)
  have hself : d ∈ x.carryRun c up d :=
    (mem_carryRun ..).2 ⟨Nat.le_refl d, fun i h h' => by omega⟩
  refine ⟨hs, ?_, fun j hj i hi hne => ?_⟩
  · rw [hbits d hd c hc, if_pos ⟨rfl, hself⟩]
  · rw [hbits j hj i hi, if_neg fun h => hne h.1]

/-- One of the two steps flips no bit but the one it is at. -/
theorem exists_short_step (x : Identifier) (hc : c < x.dimensions) (hd : d < x.digits) :
    ∃ up y, x.step up c d = .ok y ∧ y.shape = x.shape ∧
      ∀ j < x.digits, ∀ i < x.dimensions,
        y.bit j i = if i = c ∧ j = d then !x.bit j i else x.bit j i := by
  obtain ⟨y, hy, hs, hbits⟩ := exists_step x (!x.bit d c) hc hd
  refine ⟨_, y, hy, hs, fun j hj i hi => ?_⟩
  have hrun : j ∈ x.carryRun c (!x.bit d c) d ↔ j = d := by
    rw [mem_carryRun]
    constructor
    · rintro ⟨hjd, hrun⟩
      rcases Nat.lt_or_eq_of_le hjd with hlt | heq
      · exact absurd (hrun d hlt (Nat.le_refl d)) (by cases x.bit d c <;> simp)
      · exact heq
    · rintro rfl
      exact ⟨Nat.le_refl _, fun i h h' => by omega⟩
  simp only [hbits j hj i hi, hrun]

end Identifier

end CubeRouting
