/-
  The byte encoding bit by bit.

  `place` gives the bit of the encoding for a bit of the identifier, and
  `cellAt?` the way back.  The two fit in both layouts, so that an encoding is
  a byte string without a bit outside the digits, and every such byte string
  is one.

  * `Shape.cellAt?_eq_some_iff`: the two directions of a layout;
  * `Identifier.toBytes_eq_iff`: an encoding by its bits;
  * `Identifier.encodings_exact`: decoding against encoding.
-/
import CubeRouting.Identifier.Bytes
import CubeRouting.Identifier.Cells
import CubeRouting.Proofs.BitString
import CubeRouting.Proofs.Identifier.Bits
import Mathlib.Data.List.GetD
import Mathlib.Tactic.IntervalCases

namespace CubeRouting

/-! ## Places -/

namespace Shape

variable {s : Shape} {i b d c : Nat}

theorem digitsPerByte_cases (h : s.dimensions ≤ packedDimensions) :
    s.dimensions = 1 ∧ s.digitsPerByte = 8 ∨ s.dimensions = 2 ∧ s.digitsPerByte = 4 ∨
      s.dimensions = 3 ∧ s.digitsPerByte = 2 ∨ s.dimensions = 4 ∧ s.digitsPerByte = 2 := by
  have hpos := s.dimensions_pos
  have h4 : s.dimensions ≤ 4 := h
  rw [digitsPerByte]
  interval_cases s.dimensions <;> simp

theorem byteLength_packed (h : s.dimensions ≤ packedDimensions) :
    s.byteLength = (s.digits + s.digitsPerByte - 1) / s.digitsPerByte := by
  have h₁ := s.dimensions_pos
  have h₂ := s.digits_pos
  rw [byteLength, CubeRouting.byteLength, if_neg (by omega), if_pos h, digitsPerByte]

theorem byteLength_general (h : ¬s.dimensions ≤ packedDimensions) :
    s.byteLength = s.digits * s.bytesPerDigit := by
  have h₁ := s.dimensions_pos
  have h₂ := s.digits_pos
  rw [byteLength, CubeRouting.byteLength, if_neg (by omega), if_neg h, bytesPerDigit]

theorem place_lt (hd : d < s.digits) (hc : c < s.dimensions) :
    (s.place d c).1 < s.byteLength ∧ (s.place d c).2 < 8 := by
  rw [place]
  split
  · rename_i h
    rw [byteLength_packed h]
    rcases digitsPerByte_cases h with ⟨hD, hp⟩ | ⟨hD, hp⟩ | ⟨hD, hp⟩ | ⟨hD, hp⟩ <;>
      simp only [hD, hp] at hc ⊢ <;> omega
  · rename_i h
    rw [byteLength_general h]
    have hw : c / 8 < s.bytesPerDigit := by rw [bytesPerDigit]; omega
    have hrow : (d + 1) * s.bytesPerDigit ≤ s.digits * s.bytesPerDigit := Nat.mul_le_mul_right _ hd
    rw [Nat.succ_mul] at hrow
    simp only
    omega

theorem cellAt?_eq_some_iff (hi : i < s.byteLength) (hb : b < 8) :
    s.cellAt? i b = some (d, c) ↔ (d < s.digits ∧ c < s.dimensions) ∧ s.place d c = (i, b) := by
  rw [cellAt?, place]
  split
  · rename_i h
    rcases digitsPerByte_cases h with ⟨hD, hp⟩ | ⟨hD, hp⟩ | ⟨hD, hp⟩ | ⟨hD, hp⟩ <;>
      simp only [hD, hp, Option.ite_none_right_eq_some, Option.some.injEq, Prod.mk.injEq] <;> omega
  · rename_i h
    rw [byteLength_general h] at hi
    have hw : 8 * s.bytesPerDigit < s.dimensions + 8 ∧ s.dimensions ≤ 8 * s.bytesPerDigit := by
      rw [bytesPerDigit]; omega
    generalize s.bytesPerDigit = w at *
    have hw' : 0 < w := by have := s.dimensions_pos; omega
    have hdiv : i / w < s.digits := Nat.div_lt_of_lt_mul (by rwa [Nat.mul_comm])
    have hmod := Nat.mod_lt i hw'
    have hsum := Nat.div_add_mod' i w
    simp only [Option.ite_none_right_eq_some, Option.some.injEq, Prod.mk.injEq]
    constructor
    · rintro ⟨hc, rfl, rfl⟩
      refine ⟨⟨hdiv, hc⟩, ?_, ?_⟩
      · have : (8 * (w - 1 - i % w) + b) / 8 = w - 1 - i % w := by omega
        omega
      · omega
    · rintro ⟨⟨hd, hc⟩, rfl, rfl⟩
      have hr : w - 1 - c / 8 < w := by omega
      have hq : (d * w + (w - 1 - c / 8)) / w = d := by
        rw [Nat.add_comm, Nat.add_mul_div_right _ _ hw', Nat.div_eq_of_lt hr, Nat.zero_add]
      have hm : (d * w + (w - 1 - c / 8)) % w = w - 1 - c / 8 := by
        rw [Nat.add_comm, Nat.add_mul_mod_self_right, Nat.mod_eq_of_lt hr]
      rw [hq, hm]
      omega

end Shape

variable {s : Shape} {i b d c : Nat}

/-! ## Bytes -/

theorem UInt8.testBit_of_le (x : UInt8) (hb : 8 ≤ b) : x.toNat.testBit b = false :=
  Nat.testBit_lt_two_pow (Nat.lt_of_lt_of_le x.toNat_lt (Nat.pow_le_pow_right Nat.two_pos hb))

theorem UInt8.eq_of_testBit {x y : UInt8} (h : ∀ b < 8, x.toNat.testBit b = y.toNat.testBit b) :
    x = y := by
  refine UInt8.toNat_inj.1 (Nat.eq_of_testBit_eq fun b => ?_)
  by_cases hb : b < 8
  · exact h b hb
  · rw [UInt8.testBit_of_le x (Nat.not_lt.1 hb), UInt8.testBit_of_le y (Nat.not_lt.1 hb)]

theorem mem_bitPlaces : b ∈ bitPlaces ↔ b < 8 := by
  simp only [bitPlaces, List.mem_cons, List.not_mem_nil, or_false]
  omega

theorem testBit_ofPlaces (f : Nat → Bool) (hb : b < 8) :
    (UInt8.ofNat (BitString.toNat (bitPlaces.map f))).toNat.testBit b = f b := by
  have hlt : BitString.toNat (bitPlaces.map f) < 2 ^ 8 := BitString.toNat_lt (bitPlaces.map f)
  rw [UInt8.toNat_ofNat', Nat.mod_eq_of_lt hlt, BitString.testBit_toNat _ hb]
  interval_cases b <;> rfl

namespace Identifier

theorem testBit_encodedByte (x : Identifier) (i : Nat) (hb : b < 8) :
    (x.encodedByte i).toNat.testBit b =
      match x.shape.cellAt? i b with
      | some (d, c) => x.bit d c
      | none => false :=
  testBit_ofPlaces _ hb

end Identifier

/-! ## Padding -/

namespace Shape

/-- Bit `b` of byte `i` is the place of no bit of a digit. -/
def IsPadding (s : Shape) (i b : Nat) : Prop :=
  ∀ d < s.digits, ∀ c < s.dimensions, s.place d c ≠ (i, b)

/-- A byte string with a bit set outside the digits. -/
def SetsPadding (s : Shape) (order : ByteOrder) (bytes : List UInt8) : Prop :=
  ∃ i b, b < 8 ∧ s.IsPadding i b ∧ ((order.arrange bytes).getD i 0).toNat.testBit b = true

theorem cellAt?_eq_none_iff (hi : i < s.byteLength) (hb : b < 8) :
    s.cellAt? i b = none ↔ s.IsPadding i b := by
  rw [Option.eq_none_iff_forall_ne_some]
  constructor
  · intro h d hd c hc hplace
    exact h (d, c) ((cellAt?_eq_some_iff hi hb).2 ⟨⟨hd, hc⟩, hplace⟩)
  · rintro h ⟨d, c⟩ hcell
    obtain ⟨⟨hd, hc⟩, hplace⟩ := (cellAt?_eq_some_iff hi hb).1 hcell
    exact h d hd c hc hplace

end Shape

namespace ByteOrder

@[simp] theorem arrange_arrange (order : ByteOrder) (bytes : List UInt8) :
    order.arrange (order.arrange bytes) = bytes := by
  cases order <;> simp [arrange]

@[simp] theorem length_arrange (order : ByteOrder) (bytes : List UInt8) :
    (order.arrange bytes).length = bytes.length := by
  cases order <;> simp [arrange]

end ByteOrder

namespace Identifier

variable {x y : Identifier} {order : ByteOrder} {bytes big : List UInt8}

theorem isCanonical_iff (hlen : big.length = s.byteLength) :
    isCanonical s big = true ↔
      ∀ i b, b < 8 → s.IsPadding i b → (big.getD i 0).toNat.testBit b = false := by
  simp only [isCanonical, List.all_eq_true, Prod.forall, mem_bitPlaces, Bool.or_eq_true,
    Bool.not_eq_true', List.mem_zipIdx_iff_getElem?]
  constructor
  · intro h i b hb hpad
    by_cases hi : i < big.length
    · have hnone := (Shape.cellAt?_eq_none_iff (hlen ▸ hi) hb).2 hpad
      have := h big[i] i (List.getElem?_eq_getElem hi) b hb
      rwa [hnone, Option.isSome_none, or_iff_right Bool.false_ne_true,
        ← List.getD_eq_getElem big 0 hi] at this
    · rw [List.getD_eq_default big 0 (Nat.not_lt.1 hi)]
      simp
  · intro h byte i hbyte b hb
    obtain ⟨hi, rfl⟩ := List.getElem?_eq_some_iff.1 hbyte
    rw [or_iff_not_imp_left, Bool.not_eq_true, Option.isSome_eq_false_iff, Option.isNone_iff_eq_none,
      Shape.cellAt?_eq_none_iff (hlen ▸ hi) hb, ← List.getD_eq_getElem big 0 hi]
    exact h i b hb

theorem not_isCanonical_iff (order : ByteOrder) (hlen : bytes.length = s.byteLength) :
    isCanonical s (order.arrange bytes) = false ↔ s.SetsPadding order bytes := by
  rw [← Bool.not_eq_true, isCanonical_iff (by simpa using hlen), Shape.SetsPadding]
  push Not
  simp

/-! ## Encoding and decoding -/

@[simp] theorem length_toBytes (x : Identifier) (order : ByteOrder) :
    (x.toBytes order).length = x.shape.byteLength := by
  simp [toBytes]

theorem getD_encoded {i : Nat} (hi : i < x.shape.byteLength) :
    (order.arrange (x.toBytes order)).getD i 0 = x.encodedByte i := by
  simp [toBytes, List.getD_eq_getElem?_getD, hi]

theorem testBit_encoded {d c : Nat} (hd : d < x.digits) (hc : c < x.dimensions) :
    ((order.arrange (x.toBytes order)).getD (x.shape.place d c).1 0).toNat.testBit
      (x.shape.place d c).2 = x.bit d c := by
  obtain ⟨hi, hb⟩ := Shape.place_lt hd hc
  rw [getD_encoded hi, testBit_encodedByte x _ hb,
    (Shape.cellAt?_eq_some_iff hi hb).2 ⟨⟨hd, hc⟩, rfl⟩]

theorem not_setsPadding_toBytes (x : Identifier) (order : ByteOrder) :
    ¬x.shape.SetsPadding order (x.toBytes order) := by
  rintro ⟨i, b, hb, hpad, hset⟩
  by_cases hi : i < x.shape.byteLength
  · rw [getD_encoded hi, testBit_encodedByte x i hb,
      (Shape.cellAt?_eq_none_iff hi hb).2 hpad] at hset
    cases hset
  · rw [List.getD_eq_default _ _ (by simpa using hi)] at hset
    simp at hset

/-- An encoding is its bits at the places of the digits, and no others. -/
theorem toBytes_eq_iff (hlen : bytes.length = x.shape.byteLength)
    (hpad : ¬x.shape.SetsPadding order bytes) :
    x.toBytes order = bytes ↔ ∀ d < x.digits, ∀ c < x.dimensions,
      ((order.arrange bytes).getD (x.shape.place d c).1 0).toNat.testBit (x.shape.place d c).2 =
        x.bit d c := by
  constructor
  · rintro rfl d hd c hc
    exact testBit_encoded hd hc
  intro h
  have hbig : (List.range x.shape.byteLength).map x.encodedByte = order.arrange bytes := by
    refine List.ext_getElem (by simp [hlen]) fun i hi _ => ?_
    have hi' : i < x.shape.byteLength := by simpa using hi
    simp only [List.getElem_map, List.getElem_range]
    refine UInt8.eq_of_testBit fun b hb => ?_
    rw [testBit_encodedByte x i hb, ← List.getD_eq_getElem (order.arrange bytes) 0]
    cases hcell : x.shape.cellAt? i b with
    | some cell =>
      obtain ⟨d, c⟩ := cell
      obtain ⟨⟨hd, hc⟩, hplace⟩ := (Shape.cellAt?_eq_some_iff hi' hb).1 hcell
      have hbit := h d hd c hc
      rw [hplace] at hbit
      exact hbit.symm
    | none =>
      have hnone := (Shape.cellAt?_eq_none_iff hi' hb).1 hcell
      by_contra hset
      exact hpad ⟨i, b, hb, hnone, by simpa using Ne.symm hset⟩
  rw [toBytes, hbig, ByteOrder.arrange_arrange]

/-- Identifiers of one shape with one encoding are equal. -/
theorem toBytes_inj (hs : x.shape = y.shape) (h : x.toBytes order = y.toBytes order) : x = y := by
  refine ext_bits hs fun d hd c hc => ?_
  have hd' : d < y.digits := by rwa [digits, ← hs]
  have hc' : c < y.dimensions := by rwa [dimensions, ← hs]
  rw [← testBit_encoded hd hc, ← testBit_encoded hd' hc', h, hs]

@[simp] theorem shape_ofFn (s : Shape) (f : Nat → Bool) : (ofFn s f).shape = s := rfl

theorem bit_ofFn_divMod (s : Shape) (g : Nat → Nat → Bool) {d c : Nat} (hd : d < s.digits)
    (hc : c < s.dimensions) :
    (ofFn s fun k => g (k / s.dimensions) (k % s.dimensions)).bit d c = g d c := by
  rw [bit_ofFn s _ hd hc, Nat.mul_comm, Nat.mul_add_div s.dimensions_pos, Nat.div_eq_of_lt hc,
    Nat.mul_add_mod, Nat.mod_eq_of_lt hc, Nat.add_zero]

theorem ofBytes_cases (s : Shape) (order : ByteOrder) (bytes : List UInt8) :
    (bytes.length ≠ s.byteLength ∧
      ofBytes s order bytes = .error (.byteLength s.byteLength bytes.length)) ∨
    (bytes.length = s.byteLength ∧ s.SetsPadding order bytes ∧
      ofBytes s order bytes = .error .nonCanonicalPadding) ∨
    (bytes.length = s.byteLength ∧ ¬s.SetsPadding order bytes ∧
      ∃ x, ofBytes s order bytes = .ok x ∧ x.shape = s ∧ x.toBytes order = bytes) := by
  unfold ofBytes
  by_cases hlen : bytes.length = s.byteLength
  swap
  · exact Or.inl ⟨hlen, by rw [if_pos hlen]; rfl⟩
  refine Or.inr ?_
  rw [if_neg (not_not.2 hlen)]
  have hcanonical := not_isCanonical_iff order hlen
  cases hc : isCanonical s (order.arrange bytes) with
  | false => exact Or.inl ⟨hlen, hcanonical.1 hc, by simp only [hc]; rfl⟩
  | true =>
    have hpad : ¬s.SetsPadding order bytes := by rw [← hcanonical, hc]; exact Bool.noConfusion
    refine Or.inr ⟨hlen, hpad, _, by simp only [hc]; rfl, rfl, ?_⟩
    refine (toBytes_eq_iff hlen hpad).2 fun d hd c hc => ?_
    rw [bit_ofFn_divMod s (fun d c => (((order.arrange bytes).toArray.getD (s.place d c).1 0).toNat.testBit
      (s.place d c).2)) hd hc]
    simp

/-- **Decoding inverts encoding**, and nothing else decodes. -/
theorem ofBytes_eq_ok_iff : ofBytes s order bytes = .ok x ↔ x.shape = s ∧ x.toBytes order = bytes := by
  rcases ofBytes_cases s order bytes with
    ⟨hlen, h⟩ | ⟨-, hpad, h⟩ | ⟨-, -, y, h, hshape, hbytes⟩ <;> rw [h]
  · refine iff_of_false (fun hx => by cases hx) ?_
    rintro ⟨rfl, rfl⟩
    exact hlen (length_toBytes x order)
  · refine iff_of_false (fun hx => by cases hx) ?_
    rintro ⟨rfl, rfl⟩
    exact not_setsPadding_toBytes x order hpad
  · rw [Except.ok.injEq]
    constructor
    · rintro rfl
      exact ⟨hshape, hbytes⟩
    · rintro ⟨hs, hx⟩
      exact toBytes_inj (hshape.trans hs.symm) (hbytes.trans hx.symm)

theorem ofBytes_eq_error_iff {fault : IdentifierError} : ofBytes s order bytes = .error fault ↔
    bytes.length ≠ s.byteLength ∧ fault = .byteLength s.byteLength bytes.length ∨
    bytes.length = s.byteLength ∧ s.SetsPadding order bytes ∧ fault = .nonCanonicalPadding := by
  rcases ofBytes_cases s order bytes with ⟨hlen, h⟩ | ⟨hlen, hpad, h⟩ | ⟨hlen, hpad, y, h, -⟩
  · simp [h, hlen, eq_comm]
  · simp [h, hlen, hpad, eq_comm]
  · simp [h, hlen, hpad]

/-! ## Text -/

end Identifier

theorem hexDigit_inj : ∀ m < 16, ∀ n < 16, hexDigit m = hexDigit n → m = n := by decide

theorem hexByte_inj {x y : UInt8} (h : hexByte x = hexByte y) : x = y := by
  have hx := x.toNat_lt
  have hy := y.toNat_lt
  simp only [hexByte, List.cons.injEq, and_true] at h
  have hhigh := hexDigit_inj _ (by omega) _ (by omega) h.1
  have hlow := hexDigit_inj _ (by omega) _ (by omega) h.2
  exact UInt8.toNat_inj.1 (by omega)

theorem hexText_inj {xs ys : List UInt8} (h : hexText xs = hexText ys) : xs = ys := by
  have hchars : xs.flatMap hexByte = ys.flatMap hexByte := by
    simpa [hexText] using congrArg String.toList h
  induction xs generalizing ys with
  | nil =>
    cases ys with
    | nil => rfl
    | cons y ys => simp [hexByte] at hchars
  | cons x xs ih =>
    cases ys with
    | nil => simp [hexByte] at hchars
    | cons y ys =>
      rw [List.flatMap_cons, List.flatMap_cons] at hchars
      obtain ⟨hbyte, hrest⟩ := List.append_inj hchars rfl
      rw [hexByte_inj hbyte, ih (congrArg String.ofList hrest) hrest]

namespace Identifier

theorem text_inj {x y : Identifier} (hs : x.shape = y.shape) (h : x.text = y.text) : x = y :=
  toBytes_inj hs (hexText_inj h)

/-- **Identifiers and canonical byte strings correspond.**  Decoding gives the
    identifier that has the byte string as its encoding, and fails for extents
    that make no shape, for a wrong length and for a bit set outside the
    digits. -/
theorem encodings_exact (dimensions digits : Nat) (order : ByteOrder) :
    (∀ x : Identifier, (x.toBytes order).length = byteLength x.dimensions x.digits) ∧
    (∀ bytes x, decode dimensions digits order bytes = .ok x ↔
      (x.dimensions = dimensions ∧ x.digits = digits) ∧ x.toBytes order = bytes) ∧
    (∀ bytes fault, decode dimensions digits order bytes = .error fault ↔
      ¬((1 ≤ dimensions ∧ dimensions ≤ 1024) ∧ 1 ≤ digits ∧ digits ≤ 1024) ∧
        fault = .invalidShape dimensions digits ∨
      ∃ s : Shape, (s.dimensions = dimensions ∧ s.digits = digits) ∧
        (bytes.length ≠ byteLength dimensions digits ∧
          fault = .byteLength (byteLength dimensions digits) bytes.length ∨
        bytes.length = byteLength dimensions digits ∧ s.SetsPadding order bytes ∧
          fault = .nonCanonicalPadding)) ∧
    ∀ x y : Identifier, x.shape = y.shape ∧ x.text = y.text ↔ x = y := by
  refine ⟨fun x => length_toBytes x order, fun bytes x => ?_, fun bytes fault => ?_, fun x y => ?_⟩
  · rcases Shape.ofExtents_cases dimensions digits with ⟨s, ⟨rfl, rfl⟩, hs⟩ | ⟨hno, hs⟩
    · rw [decode, hs, ok_bind, ofBytes_eq_ok_iff]
      refine and_congr_left' ⟨?_, fun h => ?_⟩
      · rintro rfl
        exact ⟨rfl, rfl⟩
      · exact Except.ok.inj ((Shape.ofExtents_eq_ok_iff.2 h).symm.trans hs)
    · rw [decode, hs, error_bind]
      refine iff_of_false (fun h => by cases h) ?_
      rintro ⟨⟨rfl, rfl⟩, -⟩
      rw [Shape.ofExtents_eq_ok_iff.2 ⟨rfl, rfl⟩] at hs
      cases hs
  · rcases Shape.ofExtents_cases dimensions digits with ⟨s, ⟨rfl, rfl⟩, hs⟩ | ⟨hno, hs⟩
    · have hrange : (1 ≤ s.dimensions ∧ s.dimensions ≤ 1024) ∧ 1 ≤ s.digits ∧ s.digits ≤ 1024 :=
        ⟨⟨s.dimensions_pos, s.dimensions_le⟩, s.digits_pos, s.digits_le⟩
      rw [decode, hs, ok_bind, ofBytes_eq_error_iff]
      constructor
      · exact fun h => Or.inr ⟨s, ⟨rfl, rfl⟩, h⟩
      · rintro (⟨hno, -⟩ | ⟨s', hs', h⟩)
        · exact absurd hrange hno
        · rw [Shape.ofExtents_eq_ok_iff.2 hs', Except.ok.injEq] at hs
          rwa [hs] at h
    · rw [decode, hs, error_bind, Except.error.injEq]
      constructor
      · exact fun h => Or.inl ⟨hno, h.symm⟩
      · rintro (⟨-, h⟩ | ⟨s', hs', -⟩)
        · exact h.symm
        · rw [Shape.ofExtents_eq_ok_iff.2 hs'] at hs
          cases hs
  · constructor
    · rintro ⟨hs, h⟩
      exact text_inj hs h
    · rintro rfl
      exact ⟨rfl, rfl⟩

example : (ofDigits (.mk 3 3) [5, 2, 7]).map (·.toBytes .bigEndian) = .ok [0xa8, 0xe0] := by
  decide

example : (ofDigits (.mk 12 1) [0xabc]).map (·.toBytes .littleEndian) = .ok [0xbc, 0x0a] := by
  decide

end Identifier

end CubeRouting
