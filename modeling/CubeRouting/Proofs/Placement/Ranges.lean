/-
  Placement on machine words.

  A digit is a word of 64 bits here, a subtraction must not go below zero, and
  a word must not be shifted by its width or more.  The place of a peer, the
  search for an RT2 level and the window of a mask are computed again, digit by
  digit and with these checks (`checkedCompute`, `checkedMatchingLevel`,
  `checkedWindow`).

  * `checkedCompute_eq`, `checkedMatchingLevel_eq`, `checkedWindow_eq`: no check
    fails, and the results are the same.
-/
import CubeRouting.Policy.Secure
import CubeRouting.Proofs.Placement.Cells

namespace CubeRouting

/-! ## Words -/

/-- Why a computation on words stops. -/
inductive WordFault where
  | identifier (fault : IdentifierError)
  /-- `x - y` is negative. -/
  | underflow (x y : Nat)
  /-- A word was shifted by its width or more. -/
  | shift (k : Nat)
deriving DecidableEq

def checkedSub (x y : Nat) : Except WordFault Nat :=
  if y ≤ x then .ok (x - y) else .error (.underflow x y)

/-- The word whose only bit is bit `k`. -/
def checkedFlag (k : Nat) : Except WordFault Nat :=
  if k < wordBits then .ok (2 ^ k) else .error (.shift k)

/-- The position of the lowest set bit of a word, its width if there is none. -/
def trailingZeros (n : Nat) : Nat := (List.range wordBits).findIdx n.testBit

@[simp] theorem mapError_ok {ε ε' α : Type} (f : ε → ε') (a : α) :
    (Except.ok a : Except ε α).mapError f = .ok a := rfl

@[simp] theorem mapError_error {ε ε' α : Type} (f : ε → ε') (e : ε) :
    (Except.error e : Except ε α).mapError f = .error (f e) := rfl

@[simp] theorem checkedSub_of_le {x y : Nat} (h : y ≤ x) : checkedSub x y = .ok (x - y) := if_pos h

theorem trailingZeros_eq {n c : Nat} (hc : c < wordBits) (hbit : n.testBit c = true)
    (hlow : ∀ i < c, n.testBit i = false) : trailingZeros n = c := by
  rw [trailingZeros, List.findIdx_eq (by simpa using hc)]
  exact ⟨by simpa using hbit, fun i hi => by simpa using hlow i hi⟩

namespace Identifier

variable {x : Identifier} {c d : Nat}

section
variable (hD : x.dimensions < wordBits)
include hD

/-- The bits of a digit are those of its word. -/
theorem testBit_digitWord (hc : c < x.dimensions) :
    (x.digitWord d).testBit c = x.bit d c := by
  rw [digitWord_eq hD, BitString.testBit_toNat_reverse]
  simp [digitBits, List.getD_eq_getElem?_getD, hc]

theorem testBit_digitWord_of_le (hc : x.dimensions ≤ c) :
    (x.digitWord d).testBit c = false := by
  have hend : (x.digitBits d)[c]? = none := List.getElem?_eq_none (by rwa [length_digitBits])
  rw [digitWord_eq hD, BitString.testBit_toNat_reverse, List.getD_eq_getElem?_getD, hend,
    Option.getD_none]

/-- A digit along a dimension is zero or the flag of the dimension. -/
theorem isAlong_iff_digitWord :
    Adjacency.isAlong x c d = true ↔ x.digitWord d = 0 ∨ x.digitWord d = 2 ^ c := by
  have halong : Adjacency.isAlong x c d = true ↔
      ∀ i < x.dimensions, i ≠ c → (x.digitWord d).testBit i = false := by
    simp only [Adjacency.isAlong, List.all_eq_true, List.mem_range, Bool.or_eq_true, beq_iff_eq,
      Bool.not_eq_true', Decidable.or_iff_not_imp_left]
    exact forall₂_congr fun i hi => by rw [testBit_digitWord hD hi]
  rw [halong]
  constructor
  · intro hother
    have hbits : ∀ i, i ≠ c → (x.digitWord d).testBit i = false := fun i hne => by
      rcases Nat.lt_or_ge i x.dimensions with hi | hi
      · exact hother i hi hne
      · exact testBit_digitWord_of_le hD hi
    cases hbit : (x.digitWord d).testBit c with
    | false =>
      refine Or.inl (Nat.eq_of_testBit_eq fun i => ?_)
      rw [Nat.zero_testBit]
      by_cases hic : i = c
      · rw [hic, hbit]
      · exact hbits i hic
    | true =>
      refine Or.inr (Nat.eq_of_testBit_eq fun i => ?_)
      rw [Nat.testBit_two_pow]
      by_cases hic : i = c
      · rw [hic, hbit, decide_eq_true rfl]
      · rw [hbits i hic, decide_eq_false (Ne.symm hic)]
  · rintro (h | h) i - hne
    · rw [h, Nat.zero_testBit]
    · rw [h, Nat.testBit_two_pow, decide_eq_false (Ne.symm hne)]

end

end Identifier

/-! ## The place of a peer -/

namespace Adjacency

open Identifier

variable {self peer difference : Identifier} {c d k : Nat}

/-- The first of the digits `d`, …, `d + k - 1` that is neither zero nor the
    flag, or `d + k`. -/
def checkedRunEnd (difference : Identifier) (flag d : Nat) : Nat → Except WordFault Nat
  | 0 => .ok d
  | k + 1 => do
    let digit ← (difference.digitNat d).mapError .identifier
    if digit ≠ 0 ∧ digit ≠ flag then return d
    checkedRunEnd difference flag (d + 1) k

/-- The levels that RT2 looks at for a sibling. -/
def checkedScan (difference : Identifier) (shared : Nat) : Except WordFault Rt2Scan := do
  let dimension := trailingZeros (← (difference.digitNat shared).mapError .identifier)
  let flag ← checkedFlag dimension
  let last ← checkedRunEnd difference flag shared (difference.digits - shared)
  let minLevel ← checkedSub difference.digits last
  let maxLevel ← checkedSub (← checkedSub difference.digits 1) shared
  return { dimension, minLevel, maxLevel }

/-- The place of a peer relative to the node. -/
def checkedCompute (self peer : Identifier) : Except WordFault Adjacency := do
  let difference ← (self.xor peer).mapError .identifier
  let shared ← (self.commonPrefix peer).mapError .identifier
  if self.digits ≤ shared then
    throw (.identifier (.indexOutOfRange .differingDigit shared self.digits))
  let sibling := (← (difference.digitOnes shared).mapError .identifier) == 1
  let rt2 ← if sibling then some <$> checkedScan difference shared else pure none
  let rt1Level ← checkedSub (← checkedSub self.digits 1) shared
  let rt1Column ← (peer.digitNat shared).mapError .identifier
  return { shared, rt1Level, rt1Column, sibling, rt2 }

theorem runEnd_le (difference : Identifier) (c d k : Nat) : runEnd difference c d k ≤ d + k := by
  induction k generalizing d with
  | zero => exact Nat.le_refl d
  | succ k ih =>
    rw [runEnd]
    split
    · have := ih (d + 1)
      omega
    · exact Nat.le_add_right ..

theorem checkedRunEnd_eq (hD : difference.dimensions < wordBits)
    (hk : d + k ≤ difference.digits) :
    checkedRunEnd difference (2 ^ c) d k = .ok (runEnd difference c d k) := by
  induction k generalizing d with
  | zero => rfl
  | succ k ih =>
    have halong := isAlong_iff_digitWord (c := c) (d := d) hD
    rw [checkedRunEnd, digitNat_ok difference hD (by omega), mapError_ok, ok_bind, runEnd]
    split
    · rename_i hother
      rw [if_neg fun h => (halong.1 h).elim hother.1 hother.2]
      rfl
    · rename_i hflag
      rw [if_pos (halong.2 (by tauto))]
      exact ih (by omega)

theorem checkedScan_eq (hD : difference.dimensions < wordBits) (hk : k < difference.digits)
    (hone : (difference.digitBits k).count true = 1) :
    checkedScan difference k = .ok (siblingScan difference k) := by
  obtain ⟨c, hc, hbit, hother⟩ := count_eq_one_iff.1 hone
  have hword : c < wordBits := Nat.lt_trans hc hD
  have hzeros : trailingZeros (difference.digitWord k) = c := by
    refine trailingZeros_eq hword ?_ fun i hi => ?_
    · rw [testBit_digitWord hD hc, hbit]
    · have hlt := Nat.lt_trans hi hc
      rw [testBit_digitWord hD hlt, hother i hlt (Nat.ne_of_lt hi)]
  have hlast := runEnd_le difference c k (difference.digits - k)
  have hrun := checkedRunEnd_eq (c := c) (d := k) (k := difference.digits - k) hD (by omega)
  have hpos := difference.digits_pos
  have hflag : checkedFlag c = .ok (2 ^ c) := if_pos hword
  simp only [checkedScan, digitNat_ok difference hD hk, mapError_ok, ok_bind, hzeros, hflag, hrun]
  rw [checkedSub_of_le (by omega), checkedSub_of_le (by omega), ok_bind, ok_bind,
    checkedSub_of_le (by omega), siblingScan, idxOf_of_single hc hbit hother]
  rfl

/-- **The place of a peer is computed in range**, whatever the two
    identifiers. -/
theorem checkedCompute_eq (self peer : Identifier) :
    checkedCompute self peer = (compute self peer).mapError .identifier := by
  by_cases hs : self.shape = peer.shape
  swap
  · simp only [checkedCompute, compute, xor_error hs, mapError_error, error_bind]
  obtain ⟨difference, hdiff, hshape, -⟩ := exists_xor hs
  obtain ⟨k, hk, -, -⟩ := exists_commonPrefix hs
  have hdig : difference.digits = self.digits := congrArg Shape.digits hshape
  simp only [checkedCompute, compute, hdiff, hk, mapError_ok, ok_bind]
  by_cases hall : self.digits ≤ k
  · simp only [if_pos hall]
    rfl
  have hlt := Nat.lt_of_not_le hall
  have hones : difference.digitOnes k = .ok ((difference.digitBits k).count true) := by
    simp only [digitOnes, checkIndex, hdig, if_pos hlt]
    rfl
  simp only [if_neg hall, hones, mapError_ok, ok_bind, checkedSub_of_le self.digits_pos,
    checkedSub_of_le (Nat.le_sub_one_of_lt hlt)]
  by_cases hD : self.dimensions < wordBits
  · have hcolumn : peer.digitNat k = .ok (peer.digitWord k) := by
      refine digitNat_ok peer ?_ ?_
      · rwa [← show self.dimensions = peer.dimensions from congrArg Shape.dimensions hs]
      · rwa [← show self.digits = peer.digits from congrArg Shape.digits hs]
    simp only [hcolumn, mapError_ok, ok_bind, beq_iff_eq]
    split
    · rename_i hone
      have hD' : difference.dimensions < wordBits := by
        rwa [show difference.dimensions = self.dimensions from congrArg Shape.dimensions hshape]
      rw [checkedScan_eq hD' (hdig ▸ hlt) hone]
      rfl
    · rfl
  · -- the digits are not words, and no digit is read without an error
    have hword : ∀ x : Identifier, x.shape = self.shape →
        x.digitNat k = .error (.overflow self.dimensions wordBits) := by
      intro x hx
      have hdim : x.dimensions = self.dimensions := congrArg Shape.dimensions hx
      simp only [digitNat, hdim, if_pos (Nat.le_of_not_lt hD)]
      rfl
    simp only [checkedScan, hword difference hshape, hword peer hs.symm, mapError_error, error_bind]
    split <;> rfl

end Adjacency

/-! ## The search for a level -/

namespace Rt2Scan

open Identifier

variable {scan : Rt2Scan} {self peer : Identifier}

def checkedMatchesAt (scan : Rt2Scan) (self peer : Identifier) (level : Nat) :
    Except WordFault Bool := do
  let shared ← checkedSub self.digits level
  let last ← checkedSub shared 1
  let up ← (self.stepUp scan.dimension last).mapError .identifier
  let down ← (self.stepDown scan.dimension last).mapError .identifier
  if shared ≤ (← (peer.commonPrefix up).mapError .identifier) then return true
  return shared ≤ (← (peer.commonPrefix down).mapError .identifier)

/-- The lowest level below a bound at which the peer is in a neighboring
    hypercube. -/
def checkedMatchingLevel (scan : Rt2Scan) (self peer : Identifier) (bound : Nat) :
    Except WordFault (Option Nat) :=
  let top := min scan.maxLevel (bound - 1)
  if bound = 0 ∨ top < scan.minLevel then .ok none
  else
    (List.range' scan.minLevel (top + 1 - scan.minLevel)).findM? (scan.checkedMatchesAt self peer)

theorem checkedMatchesAt_eq (hs : self.shape = peer.shape)
    (hc : scan.dimension < self.dimensions) {level : Nat} (hl : level < self.digits) :
    scan.checkedMatchesAt self peer level = (scan.matchesAt self peer level).mapError .identifier := by
  have hd : self.digits - level - 1 < self.digits := by omega
  obtain ⟨up, hup, hupShape, -⟩ := self.exists_step true hc hd
  obtain ⟨down, hdown, hdownShape, -⟩ := self.exists_step false hc hd
  obtain ⟨m, hm, -, -⟩ := exists_commonPrefix (hs.symm.trans hupShape.symm)
  obtain ⟨m', hm', -, -⟩ := exists_commonPrefix (hs.symm.trans hdownShape.symm)
  simp only [checkedMatchesAt, matchesAt, stepUp, stepDown, checkedSub_of_le (Nat.le_of_lt hl),
    checkedSub_of_le (show 1 ≤ self.digits - level by omega), hup, hdown, hm, hm', mapError_ok,
    ok_bind]
  split
  · rename_i hle
    rw [decide_eq_true hle]
    rfl
  · rename_i hle
    rw [decide_eq_false hle]
    rfl

/-- **The search for a level stays in range**, if the scan does. -/
theorem checkedMatchingLevel_eq (hs : self.shape = peer.shape)
    (hc : scan.dimension < self.dimensions) (hmax : scan.maxLevel < self.digits) (bound : Nat) :
    ∃ r, scan.matchingLevel self peer bound = .ok r ∧
      scan.checkedMatchingLevel self peer bound = .ok r := by
  classical
  have hlevel : ∀ l ∈ scan.levelsBelow bound, l < self.digits := by
    intro l hl
    rw [levelsBelow, List.mem_range'_1] at hl
    omega
  have hmatches : ∀ l ∈ scan.levelsBelow bound, scan.matchesAt self peer l =
      .ok (decide (IsNeighborAt self peer scan.dimension l)) :=
    fun l hl => matchesAt_ok hs hc (hlevel l hl)
  refine ⟨_, findM?_ok hmatches, ?_⟩
  rw [checkedMatchingLevel]
  split
  · rename_i hnone
    have hempty : scan.levelsBelow bound = [] := by
      rw [levelsBelow, show min (scan.maxLevel + 1) bound - scan.minLevel = 0 by omega]
      rfl
    rw [hempty]
    rfl
  · rename_i hsome
    have hlevels : List.range' scan.minLevel (min scan.maxLevel (bound - 1) + 1 - scan.minLevel) =
        scan.levelsBelow bound := by
      rw [levelsBelow]
      congr 1
      omega
    rw [hlevels]
    refine findM?_ok fun l hl => ?_
    rw [checkedMatchesAt_eq hs hc (hlevel l hl), hmatches l hl, mapError_ok]

end Rt2Scan

/-! ## The window of a mask -/

namespace Identifier

/-- A mask with the digits before `start` cleared, one by one. -/
def checkedWindow (mask : Identifier) (start : Nat) : Except IdentifierError Identifier :=
  (List.range (min start mask.digits)).foldlM (fun mask d => mask.setDigit d 0) mask

theorem bit_window (mask : Identifier) (start : Nat) {d c : Nat} (hd : d < mask.digits)
    (hc : c < mask.dimensions) :
    (mask.window start).bit d c = (decide (start ≤ d) && mask.bit d c) := by
  rw [window, bit_ofFn _ _ hd hc, Nat.add_comm, Nat.add_mul_div_right _ _ mask.dimensions_pos,
    Nat.div_eq_of_lt hc, Nat.zero_add, bit, Nat.add_comm]

theorem setDigit_zero (x : Identifier) {k : Nat} (hk : k < x.digits) :
    ∃ y, x.setDigit k 0 = .ok y ∧ y.shape = x.shape ∧
      ∀ d < x.digits, ∀ c < x.dimensions, y.bit d c = (decide (d ≠ k) && x.bit d c) := by
  have hfits : checkFits 0 x.dimensions = .ok () := by
    refine if_neg fun h => ?_
    exact absurd h.2 (by simp)
  have hset : x.setDigit k 0 =
      .ok (x.overwrite ((List.range x.dimensions).map (k, ·)) fun _ c => wordBit 0 c) := by
    simp only [setDigit, checkIndex, if_pos hk, hfits, ok_bind]
    rfl
  refine ⟨_, hset, rfl, fun d hd c hc => ?_⟩
  rw [bit_overwrite x _ _ (fun p hp => by
    obtain ⟨i, hi, rfl⟩ := List.mem_map.1 hp
    exact List.mem_range.1 hi) hd hc]
  by_cases hdk : d = k
  · rw [if_pos (List.mem_map.2 ⟨c, List.mem_range.2 hc, by rw [hdk]⟩)]
    simp [wordBit, hdk]
  · rw [if_neg fun h => ?_, decide_eq_true hdk, Bool.true_and]
    obtain ⟨i, -, heq⟩ := List.mem_map.1 h
    exact hdk (Prod.mk.inj heq).1.symm

/-- **The window is cut in range.** -/
theorem checkedWindow_eq (mask : Identifier) (start : Nat) :
    mask.checkedWindow start = .ok (mask.window start) := by
  have hclear : ∀ k ≤ mask.digits,
      (List.range k).foldlM (fun mask d => mask.setDigit d 0) mask = .ok (mask.window k) := by
    intro k hk
    induction k with
    | zero =>
      refine congrArg Except.ok (ext_bits rfl fun d hd c hc => ?_)
      rw [bit_window mask 0 hd hc]
      rfl
    | succ k ih =>
      obtain ⟨y, hy, hshape, hbits⟩ := (mask.window k).setDigit_zero (k := k) hk
      rw [List.range_succ, List.foldlM_append, ih (by omega), ok_bind, List.foldlM_cons, hy,
        ok_bind, List.foldlM_nil]
      refine congrArg Except.ok (ext_bits hshape fun d hd c hc => ?_)
      rw [show y.digits = mask.digits from congrArg Shape.digits hshape] at hd
      rw [show y.dimensions = mask.dimensions from congrArg Shape.dimensions hshape] at hc
      rw [hbits d hd c hc, bit_window mask k hd hc, bit_window mask (k + 1) hd hc, ← Bool.and_assoc,
        ← Bool.decide_and]
      congr 1
      exact decide_eq_decide.2 (by omega)
  rw [checkedWindow, hclear _ (Nat.min_le_right ..)]
  refine congrArg Except.ok (ext_bits rfl fun d (hd : d < mask.digits) c hc => ?_)
  rw [bit_window mask _ hd hc, bit_window mask _ hd hc]
  congr 1
  exact decide_eq_decide.2 (by omega)

end Identifier

end CubeRouting
