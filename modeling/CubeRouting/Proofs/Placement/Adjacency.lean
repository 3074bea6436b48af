/-
  What the place of a peer says.

  `Describes` is the meaning of an `Adjacency`: the number of shared digits,
  the RT1 cell, the sibling flag and the range of levels that RT2 looks at.

  * `exists_compute`: for two different identifiers of one shape and fewer
    than 64 dimensions the place is found, and it describes them;
  * `compute_error`: in all other cases there is none.
-/
import CubeRouting.Placement.Adjacency
import CubeRouting.Proofs.Identifier.Steps

namespace CubeRouting

namespace Identifier

/-- Digit `d` agrees in all dimensions but `c`. -/
def AgreesOutside (x y : Identifier) (c d : Nat) : Prop :=
  ∀ i < x.dimensions, i ≠ c → x.bit d i = y.bit d i

/-- Digit `d` differs in exactly one bit, that of dimension `c`. -/
def DiffersOnlyIn (x y : Identifier) (c d : Nat) : Prop :=
  c < x.dimensions ∧ x.bit d c ≠ y.bit d c ∧ x.AgreesOutside y c d

variable {x y z : Identifier}

theorem DiffersOnlyIn.unique {c c' d : Nat} (h : x.DiffersOnlyIn y c d)
    (h' : x.DiffersOnlyIn y c' d) : c' = c := by
  by_contra hne
  exact h'.2.1 (h.2.2 c' h'.1 hne)

/-! ## One bit in a digit -/

/-- A digit with a single bit set has it at the first position of a set bit. -/
theorem idxOf_of_single {d c : Nat} (hc : c < x.dimensions) (hbit : x.bit d c = true)
    (hother : ∀ i < x.dimensions, i ≠ c → x.bit d i = false) : (x.digitBits d).idxOf true = c := by
  rw [List.idxOf, List.findIdx_eq (by simpa using hc)]
  refine ⟨by simp [digitBits, hbit], fun j hj => ?_⟩
  simp [digitBits, hother j (by omega) (by omega)]

theorem count_eq_one_iff {d : Nat} :
    (x.digitBits d).count true = 1 ↔ ∃ c < x.dimensions, x.bit d c = true ∧
      ∀ i < x.dimensions, i ≠ c → x.bit d i = false := by
  have hset : (x.digitBits d).count true = ((List.range x.dimensions).filter (x.bit d)).length := by
    rw [digitBits, List.count_eq_countP, List.countP_map, List.countP_eq_length_filter]
    congr 2
    funext c
    simp
  rw [hset, List.length_eq_one_iff]
  constructor
  · rintro ⟨c, hc⟩
    have hmem : ∀ i, (i < x.dimensions ∧ x.bit d i = true) ↔ i = c := fun i => by
      rw [← List.mem_singleton (b := c), ← hc, List.mem_filter, List.mem_range]
    obtain ⟨hlt, hbit⟩ := (hmem c).2 rfl
    refine ⟨c, hlt, hbit, fun i hi hne => ?_⟩
    cases hb : x.bit d i with
    | false => rfl
    | true => exact absurd ((hmem i).1 ⟨hi, hb⟩) hne
  · rintro ⟨c, hlt, hbit, hother⟩
    refine ⟨c, ?_⟩
    have hfilter : (List.range x.dimensions).filter (x.bit d) =
        (List.range x.dimensions).filter (· == c) := by
      refine List.filter_congr fun i hi => ?_
      by_cases hic : i = c
      · simp [hic, hbit]
      · simp [hic, hother i (List.mem_range.1 hi) hic]
    rw [hfilter, List.filter_beq, List.count_range, if_pos hlt]
    rfl

end Identifier

namespace Adjacency

open Identifier

variable {self peer diff : Identifier}

/-- A digit of the difference that is zero outside dimension `c`. -/
theorem isAlong_iff (hshape : diff.shape = self.shape) {c d : Nat}
    (hdiff : ∀ i < self.dimensions, diff.bit d i = (self.bit d i ^^ peer.bit d i)) :
    isAlong diff c d = true ↔ self.AgreesOutside peer c d := by
  have hD : diff.dimensions = self.dimensions := congrArg Shape.dimensions hshape
  simp only [isAlong, AgreesOutside, List.all_eq_true, List.mem_range, Bool.or_eq_true,
    beq_iff_eq, Bool.not_eq_true', hD]
  refine forall₂_congr fun i hi => ?_
  rw [hdiff i hi]
  refine Decidable.or_iff_not_imp_left.trans (imp_congr_right fun _ => ?_)
  exact bne_eq_false_iff_eq

/-- **The run ends at the first digit that is not along the dimension.** -/
theorem le_runEnd_iff (diff : Identifier) (c : Nat) {d k j : Nat} (hj : d + j ≤ d + k) :
    d + j ≤ runEnd diff c d k ↔ ∀ i < j, isAlong diff c (d + i) = true := by
  induction k generalizing d j with
  | zero =>
    obtain rfl : j = 0 := by omega
    simp [runEnd]
  | succ k ih =>
    cases j with
    | zero =>
      refine iff_of_true ?_ (by simp)
      rw [runEnd]
      split
      · exact Nat.le_trans (by omega) ((ih (d := d + 1) (j := 0) (by omega)).2 (by simp))
      · exact Nat.le_refl d
    | succ j =>
      rw [runEnd]
      split
      · rename_i h
        rw [show d + (j + 1) = d + 1 + j by omega, ih (by omega)]
        constructor
        · intro hall i hi
          cases i with
          | zero => exact h
          | succ i => simpa only [Nat.add_assoc, Nat.add_comm 1] using hall i (by omega)
        · intro hall i hi
          simpa only [Nat.add_assoc, Nat.add_comm 1] using hall (i + 1) (by omega)
      · rename_i h
        exact iff_of_false (by omega) fun hall => h (hall 0 (by omega))

/-- The scan of a sibling is along the dimension of the first difference, and
    goes down as long as the digits agree outside that dimension. -/
structure Scans (scan : Rt2Scan) (x y : Identifier) (shared : Nat) : Prop where
  dimension : x.DiffersOnlyIn y scan.dimension shared
  maxLevel : scan.maxLevel = x.digits - 1 - shared
  minLevel : ∀ l ≤ scan.maxLevel,
    scan.minLevel ≤ l ↔ ∀ d < x.digits - l, x.AgreesOutside y scan.dimension d

/-- What the place of a peer means. -/
structure Describes (a : Adjacency) (x y : Identifier) : Prop where
  shared : x.commonPrefix y = .ok a.shared
  shared_lt : a.shared < x.digits
  rt1Level : a.rt1Level = x.digits - 1 - a.shared
  rt1Column : y.digitNat a.shared = .ok a.rt1Column
  sibling : a.sibling = true ↔ ∃ c, x.DiffersOnlyIn y c a.shared
  rt2_isSome : a.rt2.isSome = a.sibling
  scans : ∀ scan ∈ a.rt2, Scans scan x y a.shared

theorem digitNat_ok (x : Identifier) {d : Nat} (hD : x.dimensions < wordBits) (hd : d < x.digits) :
    x.digitNat d = .ok (x.digitWord d) := by
  simp only [digitNat, checkIndex, Nat.not_le.2 hD, hd, if_false, if_true]
  rfl

section
variable (hs : self.shape = peer.shape) (hshape : diff.shape = self.shape)
  (hbits : ∀ d < self.digits, ∀ c < self.dimensions, diff.bit d c = (self.bit d c ^^ peer.bit d c))
  {k : Nat} (hk : k < self.digits)
include hshape hbits hk

/-- The difference has one bit set where two identifiers differ in one bit. -/
theorem single_iff {c : Nat} : (c < diff.dimensions ∧ diff.bit k c = true ∧
    ∀ i < diff.dimensions, i ≠ c → diff.bit k i = false) ↔ self.DiffersOnlyIn peer c k := by
  rw [show diff.dimensions = self.dimensions from congrArg Shape.dimensions hshape]
  constructor
  · rintro ⟨hc, hset, hother⟩
    refine ⟨hc, by simpa [hbits k hk c hc] using hset, fun i hi hne => ?_⟩
    simpa [hbits k hk i hi] using hother i hi hne
  · rintro ⟨hc, hset, hother⟩
    refine ⟨hc, by simpa [hbits k hk c hc] using hset, fun i hi hne => ?_⟩
    simpa [hbits k hk i hi] using hother i hi hne

theorem count_diff_iff :
    (diff.digitBits k).count true = 1 ↔ ∃ c, self.DiffersOnlyIn peer c k := by
  rw [count_eq_one_iff]
  exact exists_congr fun c => single_iff hshape hbits hk

include hs in
theorem scans_siblingScan (hshare : self.SharesPrefix peer k) {c : Nat}
    (hc : self.DiffersOnlyIn peer c k) : Scans (siblingScan diff k) self peer k := by
  have hdig : diff.digits = self.digits := congrArg Shape.digits hshape
  have hdim : (siblingScan diff k).dimension = c := by
    obtain ⟨h₁, h₂, h₃⟩ := (single_iff hshape hbits hk).2 hc
    exact idxOf_of_single h₁ h₂ h₃
  refine ⟨by rw [hdim]; exact hc, by rw [siblingScan, hdig], fun l hl => ?_⟩
  have hrun := le_runEnd_iff diff (siblingScan diff k).dimension (d := k)
    (k := self.digits - k) (j := self.digits - l - k) (by omega)
  have hmin : (siblingScan diff k).minLevel = self.digits -
      runEnd diff (siblingScan diff k).dimension k (self.digits - k) := by
    rw [siblingScan, hdig]
  rw [siblingScan, hdig] at hl
  have hle : (siblingScan diff k).minLevel ≤ l ↔ k + (self.digits - l - k) ≤
      runEnd diff (siblingScan diff k).dimension k (self.digits - k) := by
    rw [hmin]
    simp only at hl
    omega
  rw [hle, hrun]
  constructor
  · intro hall d hd
    rcases Nat.lt_or_ge d k with hdk | hdk
    · exact fun i hi _ => hshare.bit_eq (congrArg Shape.dimensions hs) hdk hi
    · obtain ⟨i, rfl⟩ := Nat.exists_eq_add_of_le hdk
      exact (isAlong_iff hshape (hbits _ (by omega))).1 (hall i (by omega))
  · intro hall i hi
    exact (isAlong_iff hshape (hbits _ (by omega))).2 (hall (k + i) (by omega))

end

/-- **The place of a peer**: it exists and describes the peer. -/
theorem exists_compute (hs : self.shape = peer.shape) (hne : self ≠ peer)
    (hD : self.dimensions < wordBits) : ∃ a, compute self peer = .ok a ∧ a.Describes self peer := by
  obtain ⟨diff, hdiff, hshape, hbits⟩ := exists_xor hs
  obtain ⟨k, hk, -, -⟩ := exists_commonPrefix hs
  obtain ⟨hlt, hshare, -⟩ := commonPrefix_lt hs hne hk
  have hdig : diff.digits = self.digits := congrArg Shape.digits hshape
  have hcolumn : peer.digitNat k = .ok (peer.digitWord k) := by
    refine digitNat_ok peer ?_ ?_
    · rwa [← show self.dimensions = peer.dimensions from congrArg Shape.dimensions hs]
    · rwa [← show self.digits = peer.digits from congrArg Shape.digits hs]
  refine ⟨_, by
    simp only [compute, hdiff, hk, ok_bind, digitOnes, checkIndex, hdig, hlt, Nat.not_le.2 hlt,
      hcolumn, if_true, if_false]
    rfl, ?_⟩
  have hsib := count_diff_iff hshape hbits hlt
  refine ⟨hk, hlt, rfl, hcolumn, beq_iff_eq.trans hsib, ?_, ?_⟩
  · cases (diff.digitBits k).count true == 1 <;> rfl
  · intro scan hscan
    simp only [Option.mem_def, Option.ite_none_right_eq_some, beq_iff_eq, Option.some.injEq] at hscan
    obtain ⟨hone, rfl⟩ := hscan
    obtain ⟨c, hc⟩ := hsib.1 hone
    exact scans_siblingScan hs hshape hbits hlt hshare hc

/-- **There is no place** for an identifier of another shape, for the node
    itself, and for digits of 64 bits and more. -/
theorem compute_error (h : ¬(self.shape = peer.shape ∧ self ≠ peer ∧ self.dimensions < wordBits)) :
    ∃ e, compute self peer = .error e := by
  by_cases hs : self.shape = peer.shape
  swap
  · exact ⟨_, by simp only [compute, xor_error hs]; rfl⟩
  obtain ⟨diff, hdiff, hshape, -⟩ := exists_xor hs
  obtain ⟨k, hk, hle, hiff⟩ := exists_commonPrefix hs
  by_cases hne : self = peer
  · have hall : self.digits ≤ k := (hiff _ (Nat.le_refl _)).2 fun d _ => by rw [hne]
    exact ⟨_, by simp only [compute, hdiff, hk, ok_bind, if_pos hall]; rfl⟩
  · have hD : wordBits ≤ peer.dimensions := by
      rw [← show self.dimensions = peer.dimensions from congrArg Shape.dimensions hs]
      exact Nat.not_lt.1 fun hD => h ⟨hs, hne, hD⟩
    have hlt := (commonPrefix_lt hs hne hk).1
    have hdig : diff.digits = self.digits := congrArg Shape.digits hshape
    exact ⟨_, by
      simp only [compute, hdiff, hk, ok_bind, digitOnes, checkIndex, hdig, hlt, Nat.not_le.2 hlt,
        digitNat, hD, if_true, if_false]
      rfl⟩

theorem describes_of_compute {a : Adjacency} (h : compute self peer = .ok a) :
    self.shape = peer.shape ∧ self ≠ peer ∧ self.dimensions < wordBits ∧ a.Describes self peer := by
  by_cases hok : self.shape = peer.shape ∧ self ≠ peer ∧ self.dimensions < wordBits
  · obtain ⟨hs, hne, hD⟩ := hok
    obtain ⟨a', ha, hdesc⟩ := exists_compute hs hne hD
    obtain rfl : a' = a := Except.ok.inj (ha.symm.trans h)
    exact ⟨hs, hne, hD, hdesc⟩
  · obtain ⟨e, he⟩ := compute_error hok
    rw [he] at h
    cases h

end Adjacency

end CubeRouting
