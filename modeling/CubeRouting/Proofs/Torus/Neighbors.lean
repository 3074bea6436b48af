/-
  Neighboring hypercubes by coordinates.

  `IsNeighborAt` steps the node and compares digits.  Its meaning is one of
  numbers: with all coordinates cut to their first digits, the peer is next to
  the node along the dimension and agrees with it along all others.

  * `isNeighborAt_iff`: the two say the same;
  * `IsNeighborAt.succ`: a peer that is next to the node at one precision is so
    at every coarser one at which the two differ;
  * `Adjacency.neighbor_levels`: what the test of a level tells, and the levels
    at which it succeeds.
-/
import CubeRouting.Proofs.Torus.Distance

namespace CubeRouting

/-! ## Strings next to each other -/

namespace BitString

variable {x y : BitString} {a b : Bool}

/-- On the circle of all strings of their length one of the two is the other
    plus one. -/
def IsNextTo (x y : BitString) : Prop :=
  toNat y ≡ toNat x + 1 [MOD 2 ^ x.length] ∨ toNat x ≡ toNat y + 1 [MOD 2 ^ x.length]

theorem IsNextTo.symm (hlen : x.length = y.length) (h : x.IsNextTo y) : y.IsNextTo x := by
  rw [IsNextTo, ← hlen]
  exact Or.symm h

theorem toNat_eq_of_modEq (hlen : x.length = y.length)
    (h : toNat x ≡ toNat y [MOD 2 ^ x.length]) : x = y :=
  toNat_inj hlen (h.eq_of_lt_of_lt (toNat_lt x) (hlen ▸ toNat_lt y))

/-- The last digit of a successor is flipped, and the digits before it take the
    carry. -/
theorem modEq_of_successor {u v n : Nat}
    (h : 2 * v + b.toNat ≡ 2 * u + a.toNat + 1 [MOD 2 * n]) : v ≡ u + a.toNat [MOD n] := by
  have hparity : (2 * v + b.toNat) % 2 = (2 * u + a.toNat + 1) % 2 := h.of_mul_right n
  cases a <;> cases b <;> simp only [Bool.toNat_false, Bool.toNat_true] at h hparity ⊢
  · omega
  · exact (h.add_right_cancel' 1).mul_left_cancel' (by decide)
  · exact Nat.ModEq.mul_left_cancel' (c := 2) (by decide) (by rwa [Nat.mul_add])
  · omega

/-- **One digit less**: strings next to each other become equal or stay next to
    each other. -/
theorem IsNextTo.of_concat (hlen : x.length = y.length) (h : IsNextTo (x ++ [a]) (y ++ [b])) :
    x = y ∨ x.IsNextTo y := by
  rw [IsNextTo, toNat_concat, toNat_concat, List.length_append, List.length_singleton,
    Nat.pow_succ'] at h
  rcases h with h | h
  · have hcarry := modEq_of_successor h
    cases a with
    | false => exact Or.inl (toNat_eq_of_modEq hlen hcarry.symm)
    | true => exact Or.inr (Or.inl hcarry)
  · have hcarry := modEq_of_successor h
    cases b with
    | false => exact Or.inl (toNat_eq_of_modEq hlen hcarry)
    | true => exact Or.inr (Or.inr hcarry)

end BitString

namespace Identifier

open BitString (toNat)

variable {x y : Identifier} {c m : Nat}

/-- With all coordinates cut to their first `m` digits, two identifiers are next
    to each other along dimension `c` and agree along all others. -/
structure IsNextTo (x y : Identifier) (c m : Nat) : Prop where
  along : BitString.IsNextTo ((x.coordinateBits c).take m) ((y.coordinateBits c).take m)
  across : ∀ i < x.dimensions, i ≠ c → (x.coordinateBits i).take m = (y.coordinateBits i).take m

theorem take_coordinateBits (hm : m ≤ x.digits) :
    (x.coordinateBits c).take m = x.leadingBits c m := by
  rw [coordinateBits, ← List.map_take, List.take_range, Nat.min_eq_left hm, leadingBits]

theorem leadingBits_succ (x : Identifier) (c m : Nat) :
    x.leadingBits c (m + 1) = x.leadingBits c m ++ [x.bit m c] := by
  rw [leadingBits, List.range_succ, List.map_append]
  rfl

theorem sharesPrefix_iff_leadingBits (hD : x.dimensions = y.dimensions) :
    x.SharesPrefix y m ↔ ∀ i < x.dimensions, x.leadingBits i m = y.leadingBits i m := by
  refine ⟨fun h i hi => h.leadingBits_eq hD hi, fun h d hd => ?_⟩
  refine (digitBits_eq_iff hD).2 fun i hi => ?_
  exact List.map_inj_left.1 (h i hi) d (List.mem_range.2 hd)

theorem isNextTo_iff (hs : x.shape = y.shape) (hm : m ≤ x.digits) :
    x.IsNextTo y c m ↔ BitString.IsNextTo (x.leadingBits c m) (y.leadingBits c m) ∧
      ∀ i < x.dimensions, i ≠ c → x.leadingBits i m = y.leadingBits i m := by
  have hm' : m ≤ y.digits := hm.trans_eq (congrArg Shape.digits hs)
  constructor
  · rintro ⟨halong, hacross⟩
    simp only [take_coordinateBits hm, take_coordinateBits hm'] at halong hacross
    exact ⟨halong, hacross⟩
  · rintro ⟨halong, hacross⟩
    refine ⟨?_, fun i hi hne => ?_⟩
    · rwa [take_coordinateBits hm, take_coordinateBits hm']
    · rw [take_coordinateBits hm, take_coordinateBits hm', hacross i hi hne]

theorem IsNextTo.symm (hs : x.shape = y.shape) (h : x.IsNextTo y c m) : y.IsNextTo x c m := by
  have hlen : ((x.coordinateBits c).take m).length = ((y.coordinateBits c).take m).length := by
    rw [List.length_take, List.length_take, length_coordinateBits, length_coordinateBits, digits,
      hs]
  refine ⟨h.along.symm hlen, fun i hi hne => (h.across i ?_ hne).symm⟩
  rwa [dimensions, hs]

/-- **One digit less**: identifiers next to each other share all digits that are
    left or stay next to each other. -/
theorem IsNextTo.of_succ (hs : x.shape = y.shape) (hm : m < x.digits)
    (h : x.IsNextTo y c (m + 1)) : x.SharesPrefix y m ∨ x.IsNextTo y c m := by
  obtain ⟨halong, hacross⟩ := (isNextTo_iff hs hm).1 h
  simp only [leadingBits_succ] at halong hacross
  have hacross' : ∀ i < x.dimensions, i ≠ c → x.leadingBits i m = y.leadingBits i m :=
    fun i hi hne => (List.append_inj (hacross i hi hne) (by simp)).1
  rcases halong.of_concat (by simp) with heq | hnext
  · refine Or.inl ((sharesPrefix_iff_leadingBits (congrArg Shape.dimensions hs)).2 fun i hi => ?_)
    by_cases hic : i = c
    · rw [hic, heq]
    · exact hacross' i hi hic
  · exact Or.inr ((isNextTo_iff hs hm.le).2 ⟨hnext, hacross'⟩)

/-- Numbers next to each other are one unit apart. -/
theorem leadingBits_isNextTo_iff :
    BitString.IsNextTo (x.leadingBits c m) (y.leadingBits c m) ↔
      ∃ up, (toNat (y.leadingBits c m) : Int) ≡
        toNat (x.leadingBits c m) + unitOf up [ZMOD (2 ^ m : Nat)] := by
  rw [BitString.IsNextTo, length_leadingBits, ← Int.natCast_modEq_iff, ← Int.natCast_modEq_iff]
  constructor
  · rintro (h | h)
    · exact ⟨true, h⟩
    · refine ⟨false, ?_⟩
      have hback := (h.add_right (-1)).symm
      push_cast at hback
      rwa [Int.add_neg_cancel_right] at hback
  · rintro ⟨up, h⟩
    cases up with
    | true => exact Or.inl h
    | false =>
      have hforth := (h.add_right 1).symm
      refine Or.inr ?_
      push_cast
      rwa [unitOf, if_neg Bool.false_ne_true, Int.neg_add_cancel_right] at hforth

end Identifier

/-! ## What the test of a level tells -/

open Identifier
open BitString (toNat)

variable {self peer : Identifier} {c l k : Nat}

section
variable (hs : self.shape = peer.shape) (hc : c < self.dimensions) (hl : l < self.digits)
include hs hc hl

theorem IsNeighborAt.isNextTo (h : IsNeighborAt self peer c l) :
    self.IsNextTo peer c (self.digits - l) := by
  refine (isNextTo_iff hs (Nat.sub_le ..)).2 ⟨?_, fun i hi hne => ?_⟩
  · exact leadingBits_isNextTo_iff.2 (h.leadingBits_modEq hs hc hl)
  · exact List.map_congr_left fun d hd => h.agreesOutside hs hc hl (List.mem_range.1 hd) i hi hne

theorem isNeighborAt_of_isNextTo (h : self.IsNextTo peer c (self.digits - l)) :
    IsNeighborAt self peer c l := by
  obtain ⟨halong, hacross⟩ := (isNextTo_iff hs (Nat.sub_le ..)).1 h
  obtain ⟨up, hunit⟩ := leadingBits_isNextTo_iff.1 halong
  obtain ⟨y, hy, hshape, hstep, hother⟩ :=
    exists_step_leadingBits self up hc (d := self.digits - l - 1) (by omega)
  rw [Nat.sub_add_cancel (by omega)] at hstep hother
  -- the step leads to the number that the peer has
  have hsame : peer.leadingBits c (self.digits - l) = y.leadingBits c (self.digits - l) := by
    refine BitString.toNat_eq_of_modEq (by simp) ?_
    rw [length_leadingBits]
    exact Int.natCast_modEq_iff.1 (hunit.trans hstep.symm)
  refine ⟨y, ?_, ?_⟩
  · cases up with
    | true => exact Or.inl hy
    | false => exact Or.inr hy
  · have hD : peer.dimensions = self.dimensions := congrArg Shape.dimensions hs.symm
    refine (sharesPrefix_iff_leadingBits (hD.trans (congrArg Shape.dimensions hshape.symm))).2
      fun i hi => ?_
    by_cases hic : i = c
    · rw [hic, hsame]
    · rw [hD] at hi
      rw [hother i hi hic, hacross i hi hic]

/-- **A neighboring hypercube by coordinates.** -/
theorem isNeighborAt_iff : IsNeighborAt self peer c l ↔ self.IsNextTo peer c (self.digits - l) :=
  ⟨IsNeighborAt.isNextTo hs hc hl, isNeighborAt_of_isNextTo hs hc hl⟩

/-- **One level up**: a neighbor stays one up to its RT1 level. -/
theorem IsNeighborAt.succ (h : IsNeighborAt self peer c l)
    (hk : self.commonPrefix peer = .ok k) (hlt : l < self.digits - 1 - k) :
    IsNeighborAt self peer c (l + 1) := by
  have hne : self ≠ peer := by
    rintro rfl
    exact h.bit_ne hs hc hl rfl
  obtain ⟨-, -, hdiff⟩ := commonPrefix_lt hs hne hk
  have hnext := h.isNextTo hs hc hl
  rw [show self.digits - l = self.digits - (l + 1) + 1 by omega] at hnext
  rcases hnext.of_succ hs (by omega) with hshare | hnext
  · -- the two would share the digit in which they differ first
    exact absurd (hshare k (by omega)) hdiff
  · exact isNeighborAt_of_isNextTo hs hc (by omega) hnext

end

/-- **The levels of a neighbor** are those from the lowest to the RT1 level. -/
theorem exists_lowest_level (hs : self.shape = peer.shape) (hk : self.commonPrefix peer = .ok k)
    (hc : self.DiffersOnlyIn peer c k) (hlt : k < self.digits) (hshare : self.SharesPrefix peer k) :
    ∃ lowest ≤ self.digits - 1 - k, ∀ l < self.digits,
      IsNeighborAt self peer c l ↔ lowest ≤ l ∧ l ≤ self.digits - 1 - k := by
  classical
  have htop := isNeighborAt_top hs hlt hshare hc
  have hfirst : ∃ l, IsNeighborAt self peer c l := ⟨_, htop⟩
  -- from the lowest level up to the top
  have hup : ∀ l, Nat.find hfirst ≤ l → l ≤ self.digits - 1 - k → IsNeighborAt self peer c l := by
    intro l hlow
    induction l, hlow using Nat.le_induction with
    | base => exact fun _ => Nat.find_spec hfirst
    | succ l _ ih =>
      exact fun hle => IsNeighborAt.succ hs hc.1 (by omega) (ih (by omega)) hk (by omega)
  refine ⟨Nat.find hfirst, Nat.find_min' hfirst htop, fun l hl => ⟨fun h => ?_, fun h => ?_⟩⟩
  · exact ⟨Nat.find_min' hfirst h, (h.differsOnlyIn hs hc.1 hl hk).2⟩
  · exact hup l h.1 h.2

/-- **The test of a level** succeeds if, with all coordinates cut to the digits
    before the last `l`, the peer is next to the node along the dimension and
    agrees with it along all others.  The levels at which it succeeds are those
    from some lowest one to the highest of the scan. -/
theorem Adjacency.neighbor_levels (hs : self.shape = peer.shape) :
    (∀ (scan : Rt2Scan) (l : Nat), scan.dimension < self.dimensions → l < self.digits →
      ∃ found, scan.matchesAt self peer l = .ok found ∧
        (found = true ↔ self.IsNextTo peer scan.dimension (self.digits - l))) ∧
    ∀ (a : Adjacency) (scan : Rt2Scan), compute self peer = .ok a → a.rt2 = some scan →
      scan.maxLevel < self.digits ∧ ∃ lowest ≤ scan.maxLevel, ∀ l < self.digits,
        (scan.matchesAt self peer l = .ok true ↔ lowest ≤ l ∧ l ≤ scan.maxLevel) := by
  classical
  refine ⟨fun scan l hc hl => ⟨_, Rt2Scan.matchesAt_ok hs hc hl, ?_⟩, fun a scan ha hscan => ?_⟩
  · rw [decide_eq_true_iff, isNeighborAt_iff hs hc hl]
  · obtain ⟨-, hne, -, hdesc⟩ := describes_of_compute ha
    have hS := hdesc.scans scan hscan
    obtain ⟨hlt, hshare, -⟩ := commonPrefix_lt hs hne hdesc.shared
    obtain ⟨lowest, hle, hlevels⟩ :=
      exists_lowest_level hs hdesc.shared hS.dimension hlt hshare
    rw [hS.maxLevel]
    refine ⟨by omega, lowest, hle, fun l hl => ?_⟩
    rw [Rt2Scan.matchesAt_ok hs hS.dimension.1 hl, Except.ok.injEq, decide_eq_true_iff,
      hlevels l hl]

/-- A peer across the end of a coordinate, whose last digits lead away. -/
theorem neighbor_levels_wraparound : ∃ (self peer : Identifier) (a : Adjacency) (scan : Rt2Scan),
    self.shape = peer.shape ∧ Adjacency.compute self peer = .ok a ∧ a.rt2 = some scan ∧
    scan.maxLevel = 3 ∧ scan.matchesAt self peer 0 = .ok false ∧
    scan.matchesAt self peer 1 = .ok true ∧ self.IsNextTo peer scan.dimension 3 ∧
    ∃ lowest ≤ 3, ∀ l < 4,
      (scan.matchesAt self peer l = .ok true ↔ lowest ≤ l ∧ l ≤ 3) := by
  let self : Identifier := .ofFn (.mk 2 4) (· == 6)
  let peer : Identifier := .ofFn (.mk 2 4) (· % 2 == 0)
  have hcompute : Adjacency.compute self peer = .ok ⟨0, 3, 1, true, some ⟨0, 0, 3⟩⟩ := by
    decide +kernel
  have hone : Rt2Scan.matchesAt ⟨0, 0, 3⟩ self peer 1 = .ok true := by decide +kernel
  have hs : self.shape = peer.shape := rfl
  obtain ⟨htest, hlevels⟩ := Adjacency.neighbor_levels hs
  obtain ⟨found, hfound, hiff⟩ := htest ⟨0, 0, 3⟩ 1 (by decide) (by decide)
  have htrue : found = true := Except.ok.inj (hfound.symm.trans hone)
  exact ⟨self, peer, _, _, rfl, hcompute, rfl, rfl, by decide +kernel, hone, hiff.1 htrue,
    (hlevels _ _ hcompute rfl).2⟩

end CubeRouting
