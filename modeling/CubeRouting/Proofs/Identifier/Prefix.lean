/-
  The digits that identifiers share.

  The longer the prefix that two identifiers share, the closer they are: this is
  an ultrametric, and neither an `xor` with a third identifier nor cutting off
  digits that differ anyway changes it.

  * `exists_truncate`, `sharesPrefix_truncate`: the first digits of an
    identifier;
  * `true_mem_digitBits_xor`, `commonPrefix_xor`: the digits of a difference;
  * `min_prefixLength_le`, `prefixLength_eq_min`: three identifiers;
  * `prefix_ultrametric`: all of this together.
-/
import CubeRouting.Proofs.Identifier.Bits

namespace CubeRouting

namespace Identifier

variable {x y z m : Identifier} {k l : Nat}

/-! ## The first digits -/

/-- An identifier can be cut to any number of its first digits. -/
theorem exists_truncate (x : Identifier) (hpos : 1 ≤ k) (hle : k ≤ x.digits) :
    ∃ y, x.truncate k = .ok y ∧ y.dimensions = x.dimensions ∧ y.digits = k ∧
      ∀ d < k, ∀ c < x.dimensions, y.bit d c = x.bit d c := by
  let s : Shape := { x.shape with
    digits := k, digits_pos := hpos, digits_le := Nat.le_trans hle x.shape.digits_le }
  have hs : Shape.ofExtents x.dimensions k = .ok s := Shape.ofExtents_eq_ok_iff.2 ⟨rfl, rfl⟩
  refine ⟨ofFn s fun i => x.bits.getD i false, ?_, rfl, rfl, fun d hd c hc => bit_ofFn s _ hd hc⟩
  rw [truncate, hs, ok_bind, if_neg (Nat.not_lt.2 hle)]
  rfl

/-- Nothing is cut off if all digits stay. -/
theorem truncate_self (x : Identifier) : x.truncate x.digits = .ok x := by
  obtain ⟨y, hy, hD, hn, hbits⟩ := exists_truncate x x.digits_pos (Nat.le_refl _)
  obtain rfl : x = y := ext_bits (Shape.ext_extents hD hn).symm fun d hd c hc =>
    (hbits d hd c hc).symm
  exact hy

/-- What is left of an identifier has the same digits. -/
theorem digitBits_truncate (hpos : 1 ≤ k) (hle : k ≤ x.digits) : ∃ y, x.truncate k = .ok y ∧
    y.dimensions = x.dimensions ∧ y.digits = k ∧ ∀ d < k, y.digitBits d = x.digitBits d := by
  obtain ⟨y, hy, hD, hn, hbits⟩ := exists_truncate x hpos hle
  exact ⟨y, hy, hD, hn, fun d hd => (digitBits_eq_iff hD).2 fun c hc => hbits d hd c (hD ▸ hc)⟩

/-- **Cutting off later digits** leaves shared prefixes as they are. -/
theorem sharesPrefix_truncate (hD : x.dimensions = y.dimensions) (hpos : 1 ≤ k)
    (hx : k ≤ x.digits) (hy : k ≤ y.digits) :
    ∃ x' y', x.truncate k = .ok x' ∧ y.truncate k = .ok y' ∧ x'.shape = y'.shape ∧
      x'.digits = k ∧ ∀ l ≤ k, x'.SharesPrefix y' l ↔ x.SharesPrefix y l := by
  obtain ⟨x', hx', hDx, hnx, hdx⟩ := digitBits_truncate hpos hx
  obtain ⟨y', hy', hDy, hny, hdy⟩ := digitBits_truncate hpos hy
  refine ⟨x', y', hx', hy', Shape.ext_extents ?_ (hnx.trans hny.symm), hnx, fun l hl => ?_⟩
  · exact hDx.trans (hD.trans hDy.symm)
  · refine forall₂_congr fun d hd => ?_
    rw [hdx d (Nat.lt_of_lt_of_le hd hl), hdy d (Nat.lt_of_lt_of_le hd hl)]

/-! ## Differences -/

/-- Digit `k` is the first with a bit set. -/
def IsFirstNonzero (x : Identifier) (k : Nat) : Prop :=
  k < x.digits ∧ true ∈ x.digitBits k ∧ ∀ d < k, true ∉ x.digitBits d

/-- **The digits of a difference** are those that differ. -/
theorem true_mem_digitBits_xor (hs : x.shape = y.shape) : ∃ z, x.xor y = .ok z ∧
    z.digits = x.digits ∧
      ∀ d < x.digits, true ∈ z.digitBits d ↔ x.digitBits d ≠ y.digitBits d := by
  obtain ⟨z, hz, hzs, hbits⟩ := exists_xor hs
  refine ⟨z, hz, congrArg Shape.digits hzs, fun d hd => ?_⟩
  have hD : z.dimensions = x.dimensions := congrArg Shape.dimensions hzs
  rw [ne_eq, digitBits_eq_iff (congrArg Shape.dimensions hs)]
  simp only [digitBits, List.mem_map, List.mem_range, hD, not_forall]
  refine exists_congr fun c => ?_
  constructor
  · rintro ⟨hc, hbit⟩
    rw [hbits d hd c hc] at hbit
    exact ⟨hc, by simpa using hbit⟩
  · rintro ⟨hc, hne⟩
    exact ⟨hc, by rw [hbits d hd c hc]; simpa using hne⟩

section
variable {x' y' : Identifier} (hx : x.xor m = .ok x') (hy : y.xor m = .ok y')
include hx hy

theorem sharesPrefix_xor (hk : k ≤ x.digits) :
    x'.SharesPrefix y' k ↔ x.SharesPrefix y k := by
  obtain ⟨hxm, hx', hxbits⟩ := bit_xor hx
  obtain ⟨hym, hy', hybits⟩ := bit_xor hy
  have hs : x.shape = y.shape := hxm.trans hym.symm
  have hn : x.digits = y.digits := congrArg Shape.digits hs
  have hD : x.dimensions = y.dimensions := congrArg Shape.dimensions hs
  have hD' : x'.dimensions = y'.dimensions := congrArg Shape.dimensions (by rw [hx', hy', hs])
  refine forall₂_congr fun d hd => ?_
  rw [digitBits_eq_iff hD, digitBits_eq_iff hD',
    show x'.dimensions = x.dimensions from congrArg Shape.dimensions hx']
  refine forall₂_congr fun c hc => ?_
  rw [hxbits d (by omega) c hc, hybits d (by omega) c (by omega), Bool.xor_left_inj]

/-- **Differences to a third identifier** have as many digits in common. -/
theorem commonPrefix_xor : x'.commonPrefix y' = x.commonPrefix y := by
  obtain ⟨hxm, hx', -⟩ := bit_xor hx
  obtain ⟨hym, hy', -⟩ := bit_xor hy
  have hs : x.shape = y.shape := hxm.trans hym.symm
  have hn : x'.digits = x.digits := congrArg Shape.digits hx'
  refine commonPrefix_congr (by rw [hx', hy', hs]) hs hn fun l hl => ?_
  exact sharesPrefix_xor hx hy (Nat.le_trans hl (Nat.le_of_eq hn))

end

/-! ## The ultrametric -/

theorem prefixLength_comm (hD : x.dimensions = y.dimensions) :
    x.prefixLength y = y.prefixLength x :=
  prefixLength_congr hD hD.symm (Nat.min_comm ..) fun _ _ =>
    ⟨SharesPrefix.symm, SharesPrefix.symm⟩

theorem prefixLength_le_digits (x y : Identifier) : x.prefixLength y ≤ x.digits :=
  Nat.le_trans (x.prefixLength_le y) (Nat.min_le_left ..)

section
variable (hs : x.shape = y.shape)
include hs

theorem le_prefixLength_iff_of_shape (hk : k ≤ x.digits) :
    k ≤ x.prefixLength y ↔ x.SharesPrefix y k :=
  le_prefixLength_iff (congrArg Shape.dimensions hs) (by rwa [min_digits_eq hs])

/-- Two identifiers that share all digits are the same. -/
theorem prefixLength_eq_digits_iff : x.prefixLength y = x.digits ↔ x = y := by
  constructor
  · intro h
    refine SharesPrefix.eq hs ?_
    exact (le_prefixLength_iff_of_shape hs (Nat.le_refl _)).1 (Nat.le_of_eq h.symm)
  · rintro rfl
    refine Nat.le_antisymm (prefixLength_le_digits ..) ?_
    exact (le_prefixLength_iff_of_shape rfl (Nat.le_refl _)).2 fun _ _ => rfl

/-- **The strong triangle inequality**: what two identifiers share with a third
    one they share with each other. -/
theorem min_prefixLength_le (hs' : y.shape = z.shape) :
    min (x.prefixLength y) (y.prefixLength z) ≤ x.prefixLength z := by
  have hx := x.prefixLength_le_digits y
  have hn : y.digits = x.digits := congrArg Shape.digits hs.symm
  have hle : min (x.prefixLength y) (y.prefixLength z) ≤ x.digits := by omega
  rw [le_prefixLength_iff_of_shape (hs.trans hs') hle]
  apply SharesPrefix.trans (y := y)
  · exact (le_prefixLength_iff_of_shape hs hle).1 (Nat.min_le_left ..)
  · exact (le_prefixLength_iff_of_shape hs' (hn ▸ hle)).1 (Nat.min_le_right ..)

/-- Of three identifiers two pairs share equally many digits, and the third pair
    no fewer. -/
theorem prefixLength_eq_min (hs' : y.shape = z.shape)
    (hne : x.prefixLength y ≠ y.prefixLength z) :
    x.prefixLength z = min (x.prefixLength y) (y.prefixLength z) := by
  have hD : x.dimensions = y.dimensions := congrArg Shape.dimensions hs
  have hD' : y.dimensions = z.dimensions := congrArg Shape.dimensions hs'
  have hxz := min_prefixLength_le hs hs'
  have hxy := min_prefixLength_le (hs.trans hs') hs'.symm
  have hyz := min_prefixLength_le hs.symm (hs.trans hs')
  rw [prefixLength_comm hD'.symm] at hxy
  rw [prefixLength_comm hD.symm] at hyz
  omega

end

/-- **Shared prefixes are an ultrametric.**  `commonPrefix` computes how many
    digits two identifiers share: the digits before the first of their
    difference that is not zero, or all if they are the same.  The strong
    triangle inequality holds, with equality for different sides.  Differences
    to another identifier share as many digits, identifiers that are cut to the
    digits of the shorter one do, and two share `k` digits if they are the same
    after they are cut to `k` digits. -/
theorem prefix_ultrametric :
    (∀ a b : Identifier, a.dimensions = b.dimensions →
      a.commonPrefix b = .ok (a.prefixLength b) ∧
      ∃ a' b', a.truncate (min a.digits b.digits) = .ok a' ∧
        b.truncate (min a.digits b.digits) = .ok b' ∧
        a.prefixLength b = a'.prefixLength b') ∧
    ∀ a b c m : Identifier, a.shape = b.shape → b.shape = c.shape → m.shape = a.shape →
      (a.prefixLength b = a.digits ↔ a = b) ∧
      (∃ x, a.xor b = .ok x ∧ (a ≠ b → x.IsFirstNonzero (a.prefixLength b))) ∧
      min (a.prefixLength b) (b.prefixLength c) ≤ a.prefixLength c ∧
      (a.prefixLength b ≠ b.prefixLength c →
        a.prefixLength c = min (a.prefixLength b) (b.prefixLength c)) ∧
      (∃ x y, a.xor m = .ok x ∧ b.xor m = .ok y ∧ x.prefixLength y = a.prefixLength b) ∧
      ∀ k, 1 ≤ k → k ≤ a.digits → ∃ a' b', a.truncate k = .ok a' ∧ b.truncate k = .ok b' ∧
        (k ≤ a.prefixLength b ↔ a' = b') := by
  constructor
  · intro a b hD
    have hpos : 1 ≤ min a.digits b.digits := Nat.le_min.2 ⟨a.digits_pos, b.digits_pos⟩
    obtain ⟨a', b', ha', hb', hs', hn', hshare⟩ :=
      sharesPrefix_truncate hD hpos (Nat.min_le_left ..) (Nat.min_le_right ..)
    refine ⟨commonPrefix_eq hD, a', b', ha', hb', ?_⟩
    refine prefixLength_congr hD (congrArg Shape.dimensions hs') ?_ fun l hl => (hshare l hl).symm
    rw [min_digits_eq hs', hn']
  intro a b c m hs hs' hm
  have hD : a.dimensions = b.dimensions := congrArg Shape.dimensions hs
  have hn : a.digits = b.digits := congrArg Shape.digits hs
  refine ⟨prefixLength_eq_digits_iff hs, ?_, min_prefixLength_le hs hs',
    prefixLength_eq_min hs hs', ?_, fun k hpos hk => ?_⟩
  · obtain ⟨x, hx, hnx, hdigits⟩ := true_mem_digitBits_xor hs
    refine ⟨x, hx, fun hne => ?_⟩
    obtain ⟨hlt, hshare, hdiffer⟩ := commonPrefix_lt hs hne (commonPrefix_eq hD)
    refine ⟨hnx ▸ hlt, (hdigits _ hlt).2 hdiffer, fun d hd => ?_⟩
    rw [hdigits d (Nat.lt_trans hd hlt), not_not]
    exact hshare d hd
  · obtain ⟨x, hx, hsx, -⟩ := exists_xor hm.symm
    obtain ⟨y, hy, hsy, -⟩ := exists_xor (hs.symm.trans hm.symm)
    have hxy : x.dimensions = y.dimensions := by rw [dimensions, dimensions, hsx, hsy, hs]
    have hcommon := commonPrefix_xor hx hy
    rw [commonPrefix_eq hD, commonPrefix_eq hxy] at hcommon
    exact ⟨x, y, hx, hy, Except.ok.inj hcommon⟩
  · obtain ⟨a', b', ha', hb', hs'', hn', hshare⟩ := sharesPrefix_truncate hD hpos hk (hn ▸ hk)
    refine ⟨a', b', ha', hb', ?_⟩
    rw [le_prefixLength_iff_of_shape hs hk, ← hshare k (Nat.le_refl k),
      ← prefixLength_eq_digits_iff hs'', ← hn', ← le_prefixLength_iff_of_shape hs'' (Nat.le_refl _)]
    exact ⟨fun h => Nat.le_antisymm (prefixLength_le_digits ..) h, Nat.le_of_eq ∘ Eq.symm⟩

/-- Identifiers of which two differ in digit 1 and the third differs from both
    in digit 2, and one that has no digit 2. -/
theorem prefix_ultrametric_digits :
    let s : Shape := .mk 2 4
    let a := zero s
    let b := ofFn s (· == 2)
    let c := ofFn s (· == 5)
    let m := ofFn s (· % 3 == 0)
    a.commonPrefix (zero (.mk 2 2)) = .ok 2 ∧
      b.commonPrefix (zero (.mk 2 2)) = .ok 1 ∧
      min (a.prefixLength b) (b.prefixLength c) ≤ a.prefixLength c ∧
      b.prefixLength c = min (b.prefixLength a) (a.prefixLength c) ∧
      (∃ x, a.xor b = .ok x ∧ x.IsFirstNonzero 1) ∧
      ∃ x y, a.xor m = .ok x ∧ c.xor m = .ok y ∧ x.prefixLength y = 2 := by
  intro s a b c m
  have hab := prefix_ultrametric.2 a b c m rfl rfl rfl
  have hba := prefix_ultrametric.2 b a c m rfl rfl rfl
  have hac := prefix_ultrametric.2 a c b m rfl rfl rfl
  obtain ⟨x, hx, hfirst⟩ := hab.2.1
  refine ⟨(prefix_ultrametric.1 a (zero (.mk 2 2)) rfl).1, ?_, hab.2.2.1, ?_, ⟨x, hx, ?_⟩, ?_⟩
  · exact (prefix_ultrametric.1 b (zero (.mk 2 2)) rfl).1
  · exact hba.2.2.2.1 (by decide +kernel)
  · exact hfirst (by decide +kernel)
  · exact hac.2.2.2.2.1

end Identifier

end CubeRouting
