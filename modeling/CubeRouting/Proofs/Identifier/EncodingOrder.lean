/-
  The order of encodings.

  Identifiers of one shape are ordered by their numbers.  Their big-endian
  encodings follow this order, byte by byte, and so does their text.

  * `Shape.ringPlace_lt_of_place`: in both layouts, what stands further ahead in
    the encoding has the higher place in the number;
  * `hexText_lt`: text follows the order of the bytes;
  * `Identifier.toBytes_lt_iff`, `Identifier.text_lt_iff`: encodings and text
    against numbers.
-/
import CubeRouting.Proofs.Identifier.Bytes
import CubeRouting.Proofs.Identifier.Ring
import Mathlib.Data.String.Basic

namespace CubeRouting

/-! ## Places -/

/-- **The layouts keep the order of the places**: a bit in an earlier byte, or
    higher up in the same byte, has the higher place in the number. -/
theorem Shape.ringPlace_lt_of_place {s : Shape} {d c d' c' : Nat} (hd : d < s.digits)
    (hc : c < s.dimensions) (hd' : d' < s.digits) (hc' : c' < s.dimensions)
    (h : (s.place d' c').1 < (s.place d c).1 ∨
      (s.place d' c').1 = (s.place d c).1 ∧ (s.place d c).2 < (s.place d' c').2) :
    s.ringPlace d c < s.ringPlace d' c' := by
  rw [Identifier.ringPlace_lt_iff s hd' hc hc' hd]
  simp only [place] at h
  split at h
  · rename_i hpacked
    rcases digitsPerByte_cases hpacked with ⟨hD, hp⟩ | ⟨hD, hp⟩ | ⟨hD, hp⟩ | ⟨hD, hp⟩ <;>
      simp only [hD, hp] at hc hc' h ⊢ <;> omega
  · have hw : c / 8 < s.bytesPerDigit := by rw [bytesPerDigit]; omega
    have hw' : c' / 8 < s.bytesPerDigit := by rw [bytesPerDigit]; omega
    rcases Nat.lt_trichotomy d' d with hlt | rfl | hlt
    · exact Or.inl hlt
    · omega
    · -- the bytes of a later digit are behind all bytes of an earlier one
      have hrow := Nat.mul_le_mul_right s.bytesPerDigit (Nat.succ_le_of_lt hlt)
      rw [Nat.succ_mul] at hrow
      omega

/-! ## Bytes -/

namespace Identifier

variable {x y : Identifier}

section
variable (hs : x.shape = y.shape)
include hs

/-- Bytes agree in a bit if the identifiers agree in the cell that it holds. -/
theorem testBit_encodedByte_congr {i b : Nat} (hi : i < x.shape.byteLength) (hb : b < 8)
    (h : ∀ d < x.digits, ∀ c < x.dimensions, x.shape.place d c = (i, b) → x.bit d c = y.bit d c) :
    (x.encodedByte i).toNat.testBit b = (y.encodedByte i).toNat.testBit b := by
  rw [testBit_encodedByte x i hb, testBit_encodedByte y i hb, ← hs]
  cases hcell : x.shape.cellAt? i b with
  | none => rfl
  | some cell =>
    obtain ⟨d, c⟩ := cell
    obtain ⟨⟨hd, hc⟩, hplace⟩ := (Shape.cellAt?_eq_some_iff hi hb).1 hcell
    exact h d hd c hc hplace

theorem toBytes_lt_of_ringNumber_lt (h : x.ringNumber < y.ringNumber) :
    x.toBytes .bigEndian < y.toBytes .bigEndian := by
  obtain ⟨d, hd, c, hc, hx, hy, hsame⟩ := exists_cell_of_ringNumber_lt hs h
  obtain ⟨hi, hb⟩ := Shape.place_lt hd hc
  have hyd : d < y.digits := lt_of_lt_of_eq hd (congrArg Shape.digits hs)
  have hyc : c < y.dimensions := lt_of_lt_of_eq hc (congrArg Shape.dimensions hs)
  -- nothing before the first cell that differs tells the two apart
  have hahead : ∀ i b, i < x.shape.byteLength → b < 8 → (i < (x.shape.place d c).1 ∨
      i = (x.shape.place d c).1 ∧ (x.shape.place d c).2 < b) →
      (x.encodedByte i).toNat.testBit b = (y.encodedByte i).toNat.testBit b := by
    intro i b hi hb hlt
    refine testBit_encodedByte_congr hs hi hb fun d' hd' c' hc' hplace => ?_
    refine hsame d' hd' c' hc' (Shape.ringPlace_lt_of_place hd hc hd' hc' ?_)
    rwa [hplace]
  refine List.lt_iff_exists.2 (Or.inr ⟨(x.shape.place d c).1, by simpa using hi,
    by simpa [← hs] using hi, fun j hj => ?_, ?_⟩)
  · simp only [toBytes, ByteOrder.arrange, List.getElem_map, List.getElem_range]
    exact UInt8.eq_of_testBit fun b hb => hahead j b (hj.trans hi) hb (Or.inl hj)
  · simp only [toBytes, ByteOrder.arrange, List.getElem_map, List.getElem_range]
    refine UInt8.lt_iff_toNat_lt.2 (Nat.lt_of_testBit (x.shape.place d c).2 ?_ ?_ fun b hlt => ?_)
    · rw [testBit_encodedByte x _ hb, (Shape.cellAt?_eq_some_iff hi hb).2 ⟨⟨hd, hc⟩, rfl⟩]
      exact hx
    · rw [testBit_encodedByte y _ hb, ← hs,
        (Shape.cellAt?_eq_some_iff hi hb).2 ⟨⟨hd, hc⟩, rfl⟩]
      exact hy
    · by_cases hb' : b < 8
      · exact hahead _ b hi hb' (Or.inr ⟨rfl, hlt⟩)
      · rw [UInt8.testBit_of_le _ (Nat.not_lt.1 hb'), UInt8.testBit_of_le _ (Nat.not_lt.1 hb')]

/-- What follows the numbers in one direction follows them in both. -/
theorem lt_iff_ringNumber_lt {α : Type} [LT α] [Std.Asymm fun a b : α => a < b]
    {f : Identifier → α}
    (hf : ∀ {x y : Identifier}, x.shape = y.shape → x.ringNumber < y.ringNumber → f x < f y) :
    f x < f y ↔ x.ringNumber < y.ringNumber := by
  refine ⟨fun h => ?_, hf hs⟩
  rcases Nat.lt_trichotomy x.ringNumber y.ringNumber with hlt | heq | hgt
  · exact hlt
  · obtain rfl := ringNumber_inj hs heq
    exact absurd h (Std.Asymm.asymm _ _ h)
  · exact absurd (hf hs.symm hgt) (Std.Asymm.asymm _ _ h)

/-- **Encodings are ordered as the numbers** of their identifiers. -/
theorem toBytes_lt_iff :
    x.toBytes .bigEndian < y.toBytes .bigEndian ↔ x.ringNumber < y.ringNumber :=
  lt_iff_ringNumber_lt hs (f := (·.toBytes .bigEndian)) toBytes_lt_of_ringNumber_lt

end

end Identifier

/-! ## Text -/

theorem hexDigit_lt : ∀ m < 16, ∀ n < 16, m < n → hexDigit m < hexDigit n := by decide

theorem hexByte_append_lt {x y : UInt8} (h : x < y) (xs ys : List Char) :
    hexByte x ++ xs < hexByte y ++ ys := by
  have hlt := UInt8.lt_iff_toNat_lt.1 h
  have hx := x.toNat_lt
  have hy := y.toNat_lt
  simp only [hexByte, List.cons_append, List.nil_append]
  by_cases hhigh : x.toNat / 16 = y.toNat / 16
  · rw [hhigh]
    refine List.cons_lt_cons_iff.2 (Or.inr ⟨rfl, List.cons_lt_cons_iff.2 (Or.inl ?_)⟩)
    exact hexDigit_lt _ (by omega) _ (by omega) (by omega)
  · exact List.cons_lt_cons_iff.2 (Or.inl (hexDigit_lt _ (by omega) _ (by omega) (by omega)))

/-- **Text follows the order of the bytes.** -/
theorem hexText_lt {xs ys : List UInt8} (h : xs < ys) : hexText xs < hexText ys := by
  rw [String.lt_iff_toList_lt, hexText, hexText, String.toList_ofList, String.toList_ofList]
  induction xs generalizing ys with
  | nil =>
    cases ys with
    | nil => exact absurd h (List.not_lt_nil _)
    | cons y ys => exact List.nil_lt_cons _ _
  | cons x xs ih =>
    cases ys with
    | nil => exact absurd h (List.not_lt_nil _)
    | cons y ys =>
      rw [List.flatMap_cons, List.flatMap_cons]
      rcases List.cons_lt_cons_iff.1 h with hbyte | ⟨rfl, hrest⟩
      · exact hexByte_append_lt hbyte _ _
      · exact List.append_left_lt (ih hrest)

/-- **Text is ordered as the numbers** of the identifiers. -/
theorem Identifier.text_lt_iff {x y : Identifier} (hs : x.shape = y.shape) :
    x.text < y.text ↔ x.ringNumber < y.ringNumber :=
  lt_iff_ringNumber_lt hs (f := text) fun hs h => hexText_lt (toBytes_lt_of_ringNumber_lt hs h)

end CubeRouting
