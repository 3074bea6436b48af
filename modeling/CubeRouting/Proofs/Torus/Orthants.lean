/-
  Orthants partition the torus.

  A point is ahead of a center on an axis, behind it, or tied with it.

  * `orthantNumber_eq_ok_iff`, `testBit_orthant`: which points have an orthant
    number, and its bits;
  * `isAhead_iff`: the way forward is not empty and less than half the circle;
  * `isAhead_swap`: on every axis without a tie one of two points is ahead;
  * `orthants_partition`: all this for the orthant numbers of two points as seen
    from each other.
-/
import CubeRouting.Proofs.Torus.Distance
import CubeRouting.Torus.Orthant

namespace CubeRouting

open BitString (toNat)

/-! ## Halves of a circle -/

section
variable {n h x y : Nat} (hn : h * 2 = n) (hx : x < n) (hy : y < n)
include hn hx hy

/-- Of two numbers that are equal or half the circle apart, neither is ahead. -/
theorem not_ahead_of_tie (htie : x = y ∨ (x - y : Int).natAbs = h) :
    ¬(0 < (y - x : Int) % n ∧ (y - x : Int) % n < h) := by
  rcases Nat.lt_trichotomy x y with hlt | rfl | hlt
  · obtain ⟨hforth, -⟩ := emod_sub_of_lt hlt hy
    rw [hforth]
    omega
  · simp
  · obtain ⟨-, hback⟩ := emod_sub_of_lt hlt hx
    rw [hback]
    omega

/-- Of any other two numbers, one is ahead. -/
theorem ahead_iff_not_ahead (hne : x ≠ y) (hhalf : (x - y : Int).natAbs ≠ h) :
    (0 < (x - y : Int) % n ∧ (x - y : Int) % n < h) ↔
      ¬(0 < (y - x : Int) % n ∧ (y - x : Int) % n < h) := by
  rcases Nat.lt_or_gt_of_ne hne with hlt | hlt
  · obtain ⟨hforth, hback⟩ := emod_sub_of_lt hlt hy
    rw [hforth, hback]
    omega
  · obtain ⟨hforth, hback⟩ := emod_sub_of_lt hlt hx
    rw [hforth, hback]
    omega

end

section
variable {a b : Identifier} {c k : Nat}

/-! ## Orthant numbers -/

/-- **Which points have an orthant number**, and what it is. -/
theorem orthantNumber_eq_ok_iff : orthantNumber a b = .ok k ↔
    (a.shape = b.shape ∧ a.dimensions ≤ maxOrthantDimensions) ∧
      toNat ((List.range a.dimensions).map (isAhead a b)).reverse = k := by
  rw [orthantNumber, Identifier.checkShape]
  split
  · rename_i hs
    rw [ok_bind]
    split
    · rename_i hD
      exact iff_of_false (fun h => by cases h) fun h => by omega
    · rename_i hD
      simp only [hs, true_and, Nat.not_lt.1 hD]
      exact ⟨Except.ok.inj, congrArg Except.ok⟩
  · rename_i hs
    exact iff_of_false (fun h => by cases h) fun h => hs h.1.1

/-- The bits of an orthant number. -/
theorem testBit_orthant (h : orthantNumber a b = .ok k) (c : Nat) :
    k.testBit c = (decide (c < a.dimensions) && isAhead a b c) := by
  obtain ⟨-, rfl⟩ := orthantNumber_eq_ok_iff.1 h
  rw [BitString.testBit_toNat_reverse]
  by_cases hc : c < a.dimensions <;> simp [List.getD_eq_getElem?_getD, hc]

/-! ## Two points as seen from each other -/

/-- The coordinates of two identifiers on axis `c` are equal or half the circle
    apart. -/
def Identifier.IsTied (a b : Identifier) (c : Nat) : Prop :=
  toNat (a.coordinateBits c) = toNat (b.coordinateBits c) ∨
    (toNat (a.coordinateBits c) - toNat (b.coordinateBits c) : Int).natAbs = 2 ^ (a.digits - 1)

section
variable (hs : a.shape = b.shape)
include hs

/-- **A point is ahead** if the way forward to it is not empty and less than half
    the circle. -/
theorem isAhead_iff (c : Nat) : isAhead a b c = true ↔
    0 < (toNat (b.coordinateBits c) - toNat (a.coordinateBits c) : Int) % (2 ^ a.digits : Nat) ∧
      (toNat (b.coordinateBits c) - toNat (a.coordinateBits c) : Int) % (2 ^ a.digits : Nat) <
        (2 ^ (a.digits - 1) : Nat) := by
  have hiff := BitString.isForward_iff (Identifier.length_coordinateBits_congr hs c)
    (by rw [Identifier.length_coordinateBits]; exact a.digits_pos)
  rwa [Identifier.length_coordinateBits] at hiff

/-- **Ties**: neither of two tied points is ahead of the other, and otherwise
    one of them is. -/
theorem isAhead_swap (c : Nat) :
    (a.IsTied b c → isAhead a b c = false ∧ isAhead b a c = false) ∧
      (¬a.IsTied b c → isAhead b a c = !isAhead a b c) := by
  have hn : b.digits = a.digits := congrArg Shape.digits hs.symm
  have hpow := Nat.two_pow_pred_mul_two a.digits_pos
  have ha := a.toNat_coordinateBits_lt c
  have hb := b.toNat_coordinateBits_lt c
  have hself := isAhead_iff hs c
  have hswap := isAhead_iff hs.symm c
  rw [hn] at hb hswap
  constructor
  · intro htie
    rw [← Bool.not_eq_true, ← Bool.not_eq_true, hself, hswap]
    refine ⟨not_ahead_of_tie hpow ha hb htie, not_ahead_of_tie hpow hb ha ?_⟩
    exact htie.imp Eq.symm fun hhalf => by rw [← Int.natAbs_neg, Int.neg_sub, hhalf]
  · intro htie
    obtain ⟨hne, hhalf⟩ := not_or.1 htie
    rw [Bool.eq_iff_iff, Bool.not_eq_true', ← Bool.not_eq_true, hself, hswap]
    exact ahead_iff_not_ahead hpow ha hb hne hhalf

end

/-- **Orthants partition the torus.**  Points of one shape with at most 63
    dimensions have an orthant number, and no others.  Bit `c` of it is set if
    the way forward along axis `c` is not empty and less than half the circle, and
    there are no other bits.  Seen from each other, two points have opposite bits,
    but for the axes with a tie, whose bits are not set. -/
theorem orthants_partition (a b : Identifier) :
    ((∃ k, orthantNumber a b = .ok k) ↔ a.shape = b.shape ∧ a.dimensions ≤ 63) ∧
    ∀ k, orthantNumber a b = .ok k →
      (∀ c < a.dimensions, k.testBit c = true ↔
        0 < (toNat (b.coordinateBits c) - toNat (a.coordinateBits c) : Int) % (2 ^ a.digits : Nat) ∧
          (toNat (b.coordinateBits c) - toNat (a.coordinateBits c) : Int) % (2 ^ a.digits : Nat) <
            (2 ^ (a.digits - 1) : Nat)) ∧
      (∀ c, a.dimensions ≤ c → k.testBit c = false) ∧
      ∃ k', orthantNumber b a = .ok k' ∧ ∀ c < a.dimensions,
        (a.IsTied b c → k.testBit c = false ∧ k'.testBit c = false) ∧
          (¬a.IsTied b c → k'.testBit c = !k.testBit c) := by
  refine ⟨⟨fun ⟨k, hk⟩ => (orthantNumber_eq_ok_iff.1 hk).1,
    fun h => ⟨_, orthantNumber_eq_ok_iff.2 ⟨h, rfl⟩⟩⟩, fun k hk => ?_⟩
  obtain ⟨⟨hs, hD⟩, -⟩ := orthantNumber_eq_ok_iff.1 hk
  have hDb : b.dimensions = a.dimensions := congrArg Shape.dimensions hs.symm
  obtain ⟨k', hk'⟩ : ∃ k', orthantNumber b a = .ok k' :=
    ⟨_, orthantNumber_eq_ok_iff.2 ⟨⟨hs.symm, hDb.trans_le hD⟩, rfl⟩⟩
  have hbit : ∀ c < a.dimensions, k.testBit c = isAhead a b c := fun c hc => by
    simp [testBit_orthant hk, hc]
  have hbit' : ∀ c < a.dimensions, k'.testBit c = isAhead b a c := fun c hc => by
    simp [testBit_orthant hk', hDb, hc]
  refine ⟨fun c hc => ?_, fun c hc => ?_, k', hk', fun c hc => ?_⟩
  · rw [hbit c hc, isAhead_iff hs]
  · simp [testBit_orthant hk, hc]
  · rw [hbit c hc, hbit' c hc]
    exact isAhead_swap hs c

/-- Of two points of a torus of eight by eight, one is ahead of the other on the
    first axis and half the circle away on the second. -/
theorem orthants_partition_halfway :
    let a : Identifier := .zero (.mk 2 3)
    let b : Identifier := .ofFn (.mk 2 3) fun i => i == 1 || i == 4
    ∃ k k', orthantNumber a b = .ok k ∧ orthantNumber b a = .ok k' ∧
      k.testBit 0 = true ∧ k'.testBit 0 = false ∧ k.testBit 1 = false ∧ k'.testBit 1 = false := by
  intro a b
  obtain ⟨hiff, hbits⟩ := orthants_partition a b
  obtain ⟨k, hk⟩ := hiff.2 ⟨rfl, by decide⟩
  obtain ⟨hahead, -, k', hk', hswap⟩ := hbits k hk
  have hset : k.testBit 0 = true := (hahead 0 (by decide)).2 (by decide)
  have hclear : k'.testBit 0 = !k.testBit 0 :=
    (hswap 0 (by decide)).2 (by unfold Identifier.IsTied; decide)
  obtain ⟨hhere, hthere⟩ := (hswap 1 (by decide)).1 (Or.inr (by decide))
  exact ⟨k, k', hk, hk', hset, by rw [hclear, hset]; rfl, hhere, hthere⟩

end

end CubeRouting
