/-
  Identifiers bit by bit.

  * `bit_overwrite`, `exists_xor`: the bits of an identifier that was built from
    another one;
  * `ext_bits`: an identifier is its shape and its bits;
  * `SharesPrefix`: two identifiers agree in their first digits;
  * `le_prefixLength_iff`, `exists_commonPrefix`: `commonPrefix` is the length of
    the longest prefix that two identifiers share.
-/
import CubeRouting.Identifier.Arithmetic
import Mathlib.Tactic.Common

namespace CubeRouting

/-! ## Operations that can fail -/

@[simp] theorem ok_bind {ε α β : Type} (a : α) (f : α → Except ε β) :
    (Except.ok a >>= f) = f a := rfl

@[simp] theorem error_bind {ε α β : Type} (e : ε) (f : α → Except ε β) :
    ((Except.error e : Except ε α) >>= f) = .error e := rfl

theorem bind_eq_ok {ε α β : Type} {x : Except ε α} {f : α → Except ε β} {b : β}
    (h : x >>= f = .ok b) : ∃ a, x = .ok a ∧ f a = .ok b := by
  cases x with
  | error e => cases h
  | ok a => exact ⟨a, rfl, h⟩

/-- A shape is its two extents. -/
theorem Shape.ext_extents {s s' : Shape} (hD : s.dimensions = s'.dimensions)
    (hn : s.digits = s'.digits) : s = s' :=
  Except.ok.inj
    ((Shape.ofExtents_eq_ok_iff.2 ⟨hD, hn⟩).symm.trans (Shape.ofExtents_eq_ok_iff.2 ⟨rfl, rfl⟩))

namespace Identifier

variable {x y z : Identifier}

/-! ## Cells -/

/-- The number of a cell determines its digit and its dimension. -/
theorem cell_inj {D d c d' c' : Nat} (hc : c < D) (hc' : c' < D)
    (h : d * D + c = d' * D + c') : d = d' ∧ c = c' := by
  have hd : d = d' := by
    have := congrArg (· / D) h
    simpa [Nat.add_comm _ c, Nat.add_comm _ c', Nat.add_mul_div_right _ _ (Nat.zero_lt_of_lt hc),
      Nat.div_eq_of_lt hc, Nat.div_eq_of_lt hc'] using this
  subst hd
  exact ⟨rfl, Nat.add_left_cancel h⟩

theorem cell_lt_size (x : Identifier) {d c : Nat} (hd : d < x.digits) (hc : c < x.dimensions) :
    d * x.dimensions + c < x.bits.size := by
  rw [x.size_bits]
  exact x.shape.index_lt hd hc

theorem dimensions_pos (x : Identifier) : 0 < x.dimensions := x.shape.dimensions_pos

theorem digits_pos (x : Identifier) : 0 < x.digits := x.shape.digits_pos

theorem bitCount_pos (x : Identifier) : 0 < x.bitCount := Nat.mul_pos x.digits_pos x.dimensions_pos

/-- **An identifier is its shape and its bits.** -/
theorem ext_bits (hs : x.shape = y.shape)
    (h : ∀ d < x.digits, ∀ c < x.dimensions, x.bit d c = y.bit d c) : x = y := by
  obtain ⟨s, xs, hx⟩ := x
  obtain ⟨s', ys, hy⟩ := y
  obtain rfl : s = s' := hs
  suffices hxy : xs = ys by subst hxy; rfl
  refine Array.ext (hx.trans hy.symm) fun i hi hi' => ?_
  have hD : 0 < s.dimensions := s.dimensions_pos
  have hd : i / s.dimensions < s.digits := Nat.div_lt_of_lt_mul (by
    rw [Nat.mul_comm, ← Shape.bitCount, ← hx]; exact hi)
  have := h (i / s.dimensions) hd (i % s.dimensions) (Nat.mod_lt i hD)
  simpa only [bit, Nat.div_add_mod', Array.getD_eq_getD_getElem?, hi, hi',
    Array.getElem?_eq_getElem, Option.getD_some] using this

/-! ## Bits of new identifiers -/

private theorem getD_foldl_set (D : Nat) (value : Nat → Nat → Bool) {d c : Nat} (hc : c < D) :
    ∀ (cells : List (Nat × Nat)) (bits : Array Bool), (∀ p ∈ cells, p.2 < D) →
      d * D + c < bits.size →
      (cells.foldl (fun bits (d, c) => bits.setIfInBounds (d * D + c) (value d c)) bits).getD
          (d * D + c) false =
        if (d, c) ∈ cells then value d c else bits.getD (d * D + c) false
  | [], bits, _, _ => by simp
  | (d', c') :: cells, bits, hcells, hsize => by
    rw [List.foldl_cons, getD_foldl_set D value hc cells _
      (fun p hp => hcells p (List.mem_cons_of_mem _ hp)) (by simpa using hsize)]
    by_cases hm : (d, c) ∈ cells
    · simp [hm]
    by_cases heq : (d', c') = (d, c)
    · cases heq
      simp [hm, hsize]
    · have hne : d' * D + c' ≠ d * D + c := fun h => by
        obtain ⟨rfl, rfl⟩ := cell_inj (hcells _ (List.mem_cons_self ..)) hc h
        exact heq rfl
      simp [hm, Ne.symm heq, hne]

theorem bit_overwrite (x : Identifier) (cells : List (Nat × Nat)) (value : Nat → Nat → Bool)
    (hcells : ∀ p ∈ cells, p.2 < x.dimensions) {d c : Nat} (hd : d < x.digits)
    (hc : c < x.dimensions) :
    (x.overwrite cells value).bit d c = if (d, c) ∈ cells then value d c else x.bit d c :=
  getD_foldl_set x.dimensions value hc cells x.bits hcells (x.cell_lt_size hd hc)

/-- The difference of two identifiers of one shape. -/
theorem exists_xor (hs : x.shape = y.shape) :
    ∃ z, x.xor y = .ok z ∧ z.shape = x.shape ∧
      ∀ d < x.digits, ∀ c < x.dimensions, z.bit d c = (x.bit d c ^^ y.bit d c) := by
  refine ⟨_, dif_pos hs, rfl, fun d hd c hc => ?_⟩
  have hx := x.cell_lt_size hd hc
  have hy : d * x.dimensions + c < y.bits.size := by rw [y.size_bits, ← hs, ← x.size_bits]; exact hx
  have hdim : y.dimensions = x.dimensions := congrArg Shape.dimensions hs.symm
  rw [bit, bit, bit, hdim]
  simp only [Array.getD_eq_getD_getElem?, Array.getElem?_zipWith, Array.getElem?_eq_getElem hx,
    Array.getElem?_eq_getElem hy, Option.getD_some]

theorem xor_error (hs : x.shape ≠ y.shape) : x.xor y = .error (.shapeMismatch x.shape y.shape) :=
  dif_neg hs

theorem bit_xor (h : x.xor y = .ok z) : x.shape = y.shape ∧ z.shape = x.shape ∧
    ∀ d < x.digits, ∀ c < x.dimensions, z.bit d c = (x.bit d c ^^ y.bit d c) := by
  by_cases hs : x.shape = y.shape
  · obtain ⟨z', hz', hshape, hbits⟩ := exists_xor hs
    obtain rfl : z' = z := Except.ok.inj (hz'.symm.trans h)
    exact ⟨hs, hshape, hbits⟩
  · rw [xor_error hs] at h
    cases h

/-! ## Shared digits -/

/-- The first `m` digits of two identifiers agree. -/
def SharesPrefix (x y : Identifier) (m : Nat) : Prop := ∀ d < m, x.digitBits d = y.digitBits d

theorem digitBits_eq_iff (hD : x.dimensions = y.dimensions) {d : Nat} :
    x.digitBits d = y.digitBits d ↔ ∀ c < x.dimensions, x.bit d c = y.bit d c := by
  simp [digitBits, ← hD]

theorem sameDigit_iff (hD : x.dimensions = y.dimensions) {d : Nat} :
    x.sameDigit y d = true ↔ x.digitBits d = y.digitBits d := by
  simp [digitBits_eq_iff hD, sameDigit]

theorem SharesPrefix.symm {m : Nat} (h : x.SharesPrefix y m) : y.SharesPrefix x m :=
  fun d hd => (h d hd).symm

theorem SharesPrefix.trans {m : Nat} (h : x.SharesPrefix y m) (h' : y.SharesPrefix z m) :
    x.SharesPrefix z m := fun d hd => (h d hd).trans (h' d hd)

theorem SharesPrefix.bit_eq {m d c : Nat} (h : x.SharesPrefix y m)
    (hD : x.dimensions = y.dimensions) (hd : d < m) (hc : c < x.dimensions) :
    x.bit d c = y.bit d c := (digitBits_eq_iff hD).1 (h d hd) c hc

theorem SharesPrefix.eq (hs : x.shape = y.shape) (h : x.SharesPrefix y x.digits) : x = y :=
  ext_bits hs fun _ hd _ hc => h.bit_eq (congrArg Shape.dimensions hs) hd hc

/-- From a digit on, identifiers share as many digits as come before the first
    that differs. -/
theorem le_sharedFrom_iff (hD : x.dimensions = y.dimensions) {m k d : Nat} (hm : m ≤ k) :
    m ≤ x.sharedFrom y d k ↔ ∀ j < m, x.digitBits (d + j) = y.digitBits (d + j) := by
  induction k generalizing d m with
  | zero => simp [Nat.le_zero.1 hm]
  | succ k ih =>
    cases m with
    | zero => simp
    | succ m =>
      rw [sharedFrom]
      split
      · rename_i h
        rw [Nat.add_le_add_iff_right, ih (Nat.le_of_succ_le_succ hm)]
        constructor
        · intro hall j hj
          cases j with
          | zero => exact (sameDigit_iff hD).1 h
          | succ j => simpa only [Nat.add_assoc, Nat.add_comm 1] using hall j (by omega)
        · intro hall j hj
          simpa only [Nat.add_assoc, Nat.add_comm 1] using hall (j + 1) (by omega)
      · rename_i h
        refine iff_of_false (by omega) fun hall => h ?_
        exact (sameDigit_iff hD).2 (by simpa using hall 0 (by omega))

theorem sharedFrom_le (x y : Identifier) (d k : Nat) : x.sharedFrom y d k ≤ k := by
  induction k generalizing d with
  | zero => exact Nat.le_refl 0
  | succ k ih =>
    rw [sharedFrom]
    split
    · exact Nat.succ_le_succ (ih _)
    · exact Nat.zero_le _

/-- How many leading digits two identifiers of one number of dimensions
    share. -/
def prefixLength (x y : Identifier) : Nat := x.sharedFrom y 0 (min x.digits y.digits)

theorem prefixLength_le (x y : Identifier) : x.prefixLength y ≤ min x.digits y.digits :=
  sharedFrom_le ..

section
variable (hD : x.dimensions = y.dimensions)
include hD

theorem commonPrefix_eq : x.commonPrefix y = .ok (x.prefixLength y) := if_pos hD

/-- **`prefixLength` is the length of the longest shared prefix.** -/
theorem le_prefixLength_iff {m : Nat} (hm : m ≤ min x.digits y.digits) :
    m ≤ x.prefixLength y ↔ x.SharesPrefix y m := by
  simp only [prefixLength, le_sharedFrom_iff hD hm, Nat.zero_add, SharesPrefix]

/-- Identifiers that share the same prefixes have the same number of digits in
    common. -/
theorem prefixLength_congr {x' y' : Identifier} (hD' : x'.dimensions = y'.dimensions)
    (hn : min x.digits y.digits = min x'.digits y'.digits)
    (h : ∀ m ≤ min x.digits y.digits, x.SharesPrefix y m ↔ x'.SharesPrefix y' m) :
    x.prefixLength y = x'.prefixLength y' := by
  have hle := x.prefixLength_le y
  have hle' := x'.prefixLength_le y'
  have hiff : ∀ m ≤ min x.digits y.digits, m ≤ x.prefixLength y ↔ m ≤ x'.prefixLength y' := by
    intro m hm
    rw [le_prefixLength_iff hD hm, h m hm, le_prefixLength_iff hD' (hn ▸ hm)]
  rw [← hn] at hle'
  exact Nat.le_antisymm ((hiff _ hle).1 (Nat.le_refl _)) ((hiff _ hle').2 (Nat.le_refl _))

end

theorem min_digits_eq (hs : x.shape = y.shape) : min x.digits y.digits = x.digits := by
  rw [show y.digits = x.digits from congrArg Shape.digits hs.symm, Nat.min_self]

/-- **`commonPrefix` is the length of the longest shared prefix.** -/
theorem exists_commonPrefix (hs : x.shape = y.shape) :
    ∃ k, x.commonPrefix y = .ok k ∧ k ≤ x.digits ∧
      ∀ m ≤ x.digits, m ≤ k ↔ x.SharesPrefix y m := by
  have hD : x.dimensions = y.dimensions := congrArg Shape.dimensions hs
  rw [← min_digits_eq hs]
  exact ⟨_, commonPrefix_eq hD, prefixLength_le x y, fun m hm => le_prefixLength_iff hD hm⟩

/-- Identifiers that share the same prefixes have the same prefix in common. -/
theorem commonPrefix_congr {x' y' : Identifier} (hs : x.shape = y.shape) (hs' : x'.shape = y'.shape)
    (hn : x.digits = x'.digits)
    (h : ∀ m ≤ x.digits, x.SharesPrefix y m ↔ x'.SharesPrefix y' m) :
    x.commonPrefix y = x'.commonPrefix y' := by
  have hD : x.dimensions = y.dimensions := congrArg Shape.dimensions hs
  have hD' : x'.dimensions = y'.dimensions := congrArg Shape.dimensions hs'
  have hmin : min x.digits y.digits = min x'.digits y'.digits := by
    rw [min_digits_eq hs, min_digits_eq hs', hn]
  rw [commonPrefix_eq hD, commonPrefix_eq hD',
    prefixLength_congr hD hD' hmin fun m hm => h m (Nat.le_trans hm (Nat.min_le_left _ _))]

/-- Identifiers of one shape are equal if they share all digits. -/
theorem commonPrefix_lt (hs : x.shape = y.shape) (hne : x ≠ y) {k : Nat}
    (h : x.commonPrefix y = .ok k) :
    k < x.digits ∧ x.SharesPrefix y k ∧ x.digitBits k ≠ y.digitBits k := by
  obtain ⟨k', hk', hle, hiff⟩ := exists_commonPrefix hs
  obtain rfl : k' = k := Except.ok.inj (hk'.symm.trans h)
  have hlt : k' < x.digits := by
    refine Nat.lt_of_le_of_ne hle fun he => hne ?_
    exact SharesPrefix.eq hs ((hiff _ (Nat.le_refl _)).1 (Nat.le_of_eq he.symm))
  refine ⟨hlt, (hiff k' hle).1 (Nat.le_refl _), fun heq => ?_⟩
  have hshare : x.SharesPrefix y (k' + 1) := fun d hd => by
    rcases Nat.lt_succ_iff_lt_or_eq.1 hd with hd | rfl
    · exact (hiff k' hle).1 (Nat.le_refl _) d hd
    · exact heq
  exact absurd ((hiff (k' + 1) hlt).2 hshare) (by omega)

end Identifier

end CubeRouting
