/-
  The circle of all bit strings of one length.

  `circleDistance` is the shorter way round between two numbers on a circle.

  * `toNat_sub`, `cmp_eq_compare`: subtraction is modulo the number of strings
    of the length, and comparison is that of the numbers;
  * `toNat_gap`, `isForward_iff`: `gap` denotes the shorter way round, and
    `isForward` says which one it is;
  * `circleDistance_le`: the shorter way round is at most the size of any
    integer that leads from one number to the other;
  * `circleDistance_eq_min`, `circleDistance_triangle`: it is a metric on the
    numbers of the circle;
  * `circleDistance_append_lt`: strings whose first digits are close are close
    themselves, whatever their last digits are.
-/
import CubeRouting.Proofs.BitString
import Mathlib.Data.Int.ModEq
import Mathlib.Tactic.Ring

namespace CubeRouting

/-- The shorter way round between two numbers on the circle of `n` points. -/
def circleDistance (n x y : Nat) : Nat := min ((x - y : Int) % n).toNat ((y - x : Int) % n).toNat

/-- The shorter way round is at most the size of any step from one number to
    the other. -/
theorem circleDistance_le {n x y : Nat} {z : Int} (h : (x - y : Int) ≡ z [ZMOD n]) :
    circleDistance n x y ≤ z.natAbs := by
  have hmod : ((z.natAbs : Int) % n).toNat ≤ z.natAbs := by
    rw [← Int.natCast_mod, Int.toNat_natCast]
    exact Nat.mod_le _ _
  rcases z.natAbs_eq with hz | hz
  · have hforth : (x - y : Int) % n = (z.natAbs : Int) % n := h.eq.trans (congrArg (· % _) hz)
    rw [circleDistance, hforth]
    exact (Nat.min_le_left _ _).trans hmod
  · have hback : (y - x : Int) % n = (z.natAbs : Int) % n := by
      rw [← Int.neg_sub, ← Int.neg_neg (z.natAbs : Int), ← hz]
      exact h.neg
    rw [circleDistance, hback]
    exact (Nat.min_le_right _ _).trans hmod

section
variable {n x y z : Nat}

theorem circleDistance_comm (n x y : Nat) : circleDistance n x y = circleDistance n y x :=
  Nat.min_comm ..

/-- The two ways round between different numbers. -/
theorem emod_sub_of_lt (hlt : x < y) (hy : y < n) :
    (y - x : Int) % n = y - x ∧ (x - y : Int) % n = x - y + n := by
  refine ⟨Int.emod_eq_of_lt (by omega) (by omega), ?_⟩
  rw [← Int.add_emod_right]
  exact Int.emod_eq_of_lt (by omega) (by omega)

theorem circleDistance_of_lt (hlt : x < y) (hy : y < n) :
    circleDistance n x y = min (y - x) (n - (y - x)) := by
  obtain ⟨hforth, hback⟩ := emod_sub_of_lt hlt hy
  rw [circleDistance, hforth, hback]
  omega

/-- The way forward is the shorter one if it is less than half the circle. -/
theorem emod_sub_lt_iff (hx : x < n) (hy : y < n) : (y - x : Int) % n < (x - y : Int) % n ↔
    0 < (y - x : Int) % n ∧ 2 * ((y - x : Int) % n) < n := by
  rcases Nat.lt_trichotomy x y with hlt | rfl | hlt
  · obtain ⟨hforth, hback⟩ := emod_sub_of_lt hlt hy
    rw [hforth, hback]
    omega
  · simp
  · obtain ⟨hforth, hback⟩ := emod_sub_of_lt hlt hx
    rw [hforth, hback]
    omega

/-- Numbers on a circle are apart by their difference or by the rest of the
    circle. -/
theorem circleDistance_eq_min (hx : x < n) (hy : y < n) :
    circleDistance n x y = min (x - y : Int).natAbs (n - (x - y : Int).natAbs) := by
  rcases Nat.lt_trichotomy x y with hlt | rfl | hlt
  · rw [circleDistance_of_lt hlt hy]
    omega
  · simp [circleDistance]
  · rw [circleDistance_comm, circleDistance_of_lt hlt hx]
    omega

theorem circleDistance_eq_zero_iff (hx : x < n) (hy : y < n) :
    circleDistance n x y = 0 ↔ x = y := by
  rw [circleDistance_eq_min hx hy]
  omega

/-- No two points are farther apart than half the circle. -/
theorem two_mul_circleDistance_le (hx : x < n) (hy : y < n) : 2 * circleDistance n x y ≤ n := by
  rw [circleDistance_eq_min hx hy]
  omega

/-- **Triangle inequality** on the circle. -/
theorem circleDistance_triangle (hx : x < n) (hy : y < n) (hz : z < n) :
    circleDistance n x z ≤ circleDistance n x y + circleDistance n y z := by
  rw [circleDistance_eq_min hx hy, circleDistance_eq_min hy hz, circleDistance_eq_min hx hz]
  omega

end

namespace BitString

variable {x y : BitString}

/-! ## Subtraction and comparison -/

/-- A digit of a difference with the borrow that it asks for. -/
theorem digit_subBorrow (a b c : Bool) :
    (a ^^ b ^^ c).toNat + b.toNat + c.toNat =
      a.toNat + 2 * ((!a && b) || (!(a ^^ b) && c)).toNat := by
  cases a <;> cases b <;> cases c <;> rfl

theorem toNat_subBorrow (hlen : x.length = y.length) :
    toNat (subBorrow x y).1 + toNat y = toNat x + (subBorrow x y).2.toNat * 2 ^ x.length := by
  induction x generalizing y with
  | nil =>
    obtain rfl := List.length_eq_zero_iff.1 hlen.symm
    rfl
  | cons a x ih =>
    cases y with
    | nil => cases hlen
    | cons b y =>
      have hxy : x.length = y.length := by simpa using hlen
      have hdigit := digit_subBorrow a b (subBorrow x y).2
      have hcons : subBorrow (a :: x) (b :: y) =
        ((a ^^ b ^^ (subBorrow x y).2) :: (subBorrow x y).1,
          (!a && b) || (!(a ^^ b) && (subBorrow x y).2)) := rfl
      have hsub : (subBorrow x y).1.length = x.length := by
        rw [length_subBorrow, ← hxy, Nat.min_self]
      rw [hcons, toNat_cons, toNat_cons, toNat_cons, hsub, ← hxy, List.length_cons, Nat.pow_succ]
      calc _ = ((a ^^ b ^^ (subBorrow x y).2).toNat + b.toNat) * 2 ^ x.length +
              (toNat (subBorrow x y).1 + toNat y) := by ring
        _ = ((a ^^ b ^^ (subBorrow x y).2).toNat + b.toNat + (subBorrow x y).2.toNat) *
              2 ^ x.length + toNat x := by rw [ih hxy]; ring
        _ = _ := by rw [hdigit]; ring

/-- **Subtraction is modulo the number of strings** of the length. -/
theorem toNat_sub (hlen : x.length = y.length) :
    (toNat (sub x y) : Int) = (toNat x - toNat y : Int) % (2 ^ x.length : Nat) := by
  have hsum := toNat_subBorrow hlen
  have hlt : toNat (sub x y) < 2 ^ x.length := by
    have := toNat_lt (sub x y)
    rwa [length_sub, ← hlen, Nat.min_self] at this
  have heq : (toNat x - toNat y : Int) = toNat (sub x y) -
      (2 ^ x.length : Nat) * (subBorrow x y).2.toNat := by
    have : toNat (subBorrow x y).1 = toNat (sub x y) := rfl
    rw [Int.mul_comm]
    omega
  rw [heq, Int.sub_mul_emod_self_left]
  exact (Int.emod_eq_of_lt (by omega) (by omega)).symm

theorem cmp_cons (a b : Bool) (x y : BitString) :
    cmp (a :: x) (b :: y) = if a = b then cmp x y else if a then .gt else .lt := by
  cases a <;> cases b <;> rfl

/-- **Comparison is that of the numbers.** -/
theorem cmp_eq_compare (hlen : x.length = y.length) : cmp x y = compare (toNat x) (toNat y) := by
  induction x generalizing y with
  | nil =>
    obtain rfl := List.length_eq_zero_iff.1 hlen.symm
    rfl
  | cons a x ih =>
    cases y with
    | nil => cases hlen
    | cons b y =>
      have hxy : x.length = y.length := by simpa using hlen
      have hx := toNat_lt x
      have hy := toNat_lt y
      rw [cmp_cons, ih hxy, toNat_cons, toNat_cons, ← hxy]
      rw [← hxy] at hy
      -- the first digits decide unless they agree
      cases a <;> cases b
      · simp
      · exact (Nat.compare_eq_lt.2 (by simp; omega)).symm
      · exact (Nat.compare_eq_gt.2 (by simp; omega)).symm
      · simp [Nat.compare_eq_ite_lt]

/-! ## The shorter way round -/

/-- **`gap` denotes the shorter way round.** -/
theorem toNat_gap (hlen : x.length = y.length) :
    toNat (gap x y) = circleDistance (2 ^ x.length) (toNat x) (toNat y) := by
  have hforth := toNat_sub hlen.symm
  have hback := toNat_sub hlen
  have hcmp := cmp_eq_compare (x := sub y x) (y := sub x y) (by simp [Nat.min_comm])
  rw [← hlen] at hforth
  rw [circleDistance, ← hforth, ← hback, Int.toNat_natCast, Int.toNat_natCast, gap, isBackward,
    hcmp]
  split
  · rename_i h
    have := Nat.compare_eq_gt.1 (beq_iff_eq.1 h)
    omega
  · rename_i h
    have : ¬toNat (sub y x) > toNat (sub x y) :=
      fun hgt => h (beq_iff_eq.2 (Nat.compare_eq_gt.2 hgt))
    omega

/-- A string is ahead if the way forward to it is not empty and less than half
    the circle. -/
theorem isForward_iff (hlen : x.length = y.length) (hpos : 1 ≤ x.length) :
    isForward x y = true ↔ 0 < (toNat y - toNat x : Int) % (2 ^ x.length : Nat) ∧
      (toNat y - toNat x : Int) % (2 ^ x.length : Nat) < (2 ^ (x.length - 1) : Nat) := by
  have hforth := toNat_sub hlen.symm
  have hback := toNat_sub hlen
  have hpow := Nat.two_pow_pred_mul_two hpos
  have hshorter := emod_sub_lt_iff (toNat_lt x) (hlen ▸ toNat_lt y)
  rw [← hlen] at hforth
  rw [isForward, beq_iff_eq, cmp_eq_compare (by simp [Nat.min_comm]), Nat.compare_eq_lt,
    ← Int.ofNat_lt, hforth, hback, hshorter]
  omega

theorem gap_comm (hlen : x.length = y.length) : gap x y = gap y x := by
  refine toNat_inj (by simp [Nat.min_comm]) ?_
  rw [toNat_gap hlen, toNat_gap hlen.symm, hlen, circleDistance_comm]

/-- No two strings are farther apart than half the number of strings. -/
theorem toNat_gap_le (hlen : x.length = y.length) (hpos : 1 ≤ x.length) :
    toNat (gap x y) ≤ 2 ^ (x.length - 1) := by
  have hhalf := two_mul_circleDistance_le (toNat_lt x) (hlen ▸ toNat_lt y)
  have hpow := Nat.two_pow_pred_mul_two hpos
  rw [toNat_gap hlen]
  omega

theorem toNat_gap_eq_zero_iff (hlen : x.length = y.length) : toNat (gap x y) = 0 ↔ x = y := by
  rw [toNat_gap hlen, circleDistance_eq_zero_iff (toNat_lt x) (hlen ▸ toNat_lt y)]
  exact ⟨toNat_inj hlen, fun h => by rw [h]⟩

theorem toNat_gap_triangle {z : BitString} (hlen : x.length = y.length)
    (hlen' : y.length = z.length) :
    toNat (gap x z) ≤ toNat (gap x y) + toNat (gap y z) := by
  have hy := toNat_lt y
  have hz := toNat_lt z
  rw [← hlen'] at hz
  rw [toNat_gap (hlen.trans hlen'), toNat_gap hlen, toNat_gap hlen', hlen]
  exact circleDistance_triangle (hlen ▸ toNat_lt x) hy hz

/-- **Close first digits make close strings**: if the first digits of two
    strings are `u` steps apart, the strings are fewer than `|u| + 1` of those
    steps apart. -/
theorem circleDistance_append_lt {p p' r r' : BitString} (hr : r.length = r'.length) {u : Int}
    (h : (toNat p - toNat p' : Int) ≡ u [ZMOD (2 ^ p.length : Nat)]) :
    circleDistance (2 ^ (p ++ r).length) (toNat (p ++ r)) (toNat (p' ++ r')) <
      (u.natAbs + 1) * 2 ^ r.length := by
  have hlt := toNat_lt r
  have hlt' := toNat_lt r'
  rw [← hr] at hlt'
  have hstep : (toNat (p ++ r) - toNat (p' ++ r') : Int) ≡
      u * (2 ^ r.length : Nat) + (toNat r - toNat r') [ZMOD (2 ^ (p ++ r).length : Nat)] := by
    rw [toNat_append, toNat_append, ← hr, List.length_append, Nat.pow_add, Nat.cast_mul]
    calc ((toNat p * 2 ^ r.length + toNat r : Nat) -
          (toNat p' * 2 ^ r.length + toNat r' : Nat) : Int)
        = (toNat p - toNat p') * (2 ^ r.length : Nat) + (toNat r - toNat r') := by push_cast; ring
      _ ≡ _ [ZMOD _] := (h.mul_right' (c := (2 ^ r.length : Nat))).add_right _
  calc circleDistance _ _ _ ≤ (u * (2 ^ r.length : Nat) + (toNat r - toNat r')).natAbs :=
        circleDistance_le hstep
    _ ≤ (u * (2 ^ r.length : Nat)).natAbs + (toNat r - toNat r' : Int).natAbs :=
        Int.natAbs_add_le _ _
    _ < u.natAbs * 2 ^ r.length + 2 ^ r.length := by
        rw [Int.natAbs_mul, Int.natAbs_natCast]
        omega
    _ = _ := by ring

end BitString

end CubeRouting
