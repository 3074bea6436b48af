/-
  Writing digits and coordinates.

  The digits are the rows of an identifier and the coordinates its columns, with
  their bits in opposite orders.  A write to one of them that succeeds replaces
  one bit of each of the others.

  * `setDigit_eq_ok_iff`, `setCoordinate_eq_ok_iff`: when a write succeeds, and
    which bits it leaves;
  * `isDigitWrite_of_setDigit`, `isCoordinateWrite_of_setCoordinate`: what both
    ways to read an identifier show of a write;
  * `setBits_cellWrites`: writes are writes of single bits;
  * `ofDigits_eq_ok_iff`: an identifier that is made of digits has these digits;
  * `cell_writes_lawful`: all of this together.
-/
import CubeRouting.Proofs.Identifier.Ring
import CubeRouting.Proofs.Number.Exact

namespace CubeRouting

/-- The cells of digit `d`, dimension 0 first. -/
def Shape.rowCells (s : Shape) (d : Nat) : List (Nat × Nat) := (List.range s.dimensions).map (d, ·)

/-- The cells of coordinate `c`, digit 0 first. -/
def Shape.columnCells (s : Shape) (c : Nat) : List (Nat × Nat) := (List.range s.digits).map (·, c)

theorem Shape.lt_of_mem_rowCells {s : Shape} {d : Nat} (hd : d < s.digits) {p : Nat × Nat}
    (hp : p ∈ s.rowCells d) : p.1 < s.digits ∧ p.2 < s.dimensions := by
  obtain ⟨c, hc, rfl⟩ := List.mem_map.1 hp
  exact ⟨hd, List.mem_range.1 hc⟩

theorem Shape.lt_of_mem_columnCells {s : Shape} {c : Nat} (hc : c < s.dimensions) {p : Nat × Nat}
    (hp : p ∈ s.columnCells c) : p.1 < s.digits ∧ p.2 < s.dimensions := by
  obtain ⟨d, hd, rfl⟩ := List.mem_map.1 hp
  exact ⟨List.mem_range.1 hd, hc⟩

namespace Identifier

open BitString (toNat)

variable {x y z : Identifier} {s : Shape} {c d i j k u v : Nat} {word : UInt64}

/-! ## Numbers of cells -/

/-- Numbers of one width are their bits. -/
theorem eq_iff_testBit_of_lt (hu : u < 2 ^ k) (hv : v < 2 ^ k) :
    u = v ↔ ∀ i < k, u.testBit i = v.testBit i := by
  refine ⟨fun h i _ => by rw [h], fun h => Nat.eq_of_testBit_eq fun i => ?_⟩
  rcases Nat.lt_or_ge i k with hi | hi
  · exact h i hi
  · have hpow : 2 ^ k ≤ 2 ^ i := Nat.pow_le_pow_right Nat.two_pos hi
    rw [Nat.testBit_lt_two_pow (hu.trans_le hpow), Nat.testBit_lt_two_pow (hv.trans_le hpow)]

theorem testBit_digitNumber_of_le (x : Identifier) (d : Nat) (hk : x.dimensions ≤ k) :
    (x.digitNumber d).testBit k = false :=
  Nat.testBit_lt_two_pow ((x.digitNumber_lt d).trans_le (Nat.pow_le_pow_right Nat.two_pos hk))

theorem testBit_toNat_coordinateBits (x : Identifier) (c : Nat) (hk : k < x.digits) :
    (toNat (x.coordinateBits c)).testBit k = x.bit (x.digits - 1 - k) c := by
  rw [BitString.testBit_toNat _ (by rwa [length_coordinateBits])]
  simp [coordinateBits]

theorem testBit_toNat_coordinateBits_of_le (x : Identifier) (c : Nat) (hk : x.digits ≤ k) :
    (toNat (x.coordinateBits c)).testBit k = false := by
  have hpow : 2 ^ x.digits ≤ 2 ^ k := Nat.pow_le_pow_right Nat.two_pos hk
  exact Nat.testBit_lt_two_pow ((x.toNat_coordinateBits_lt c).trans_le hpow)

theorem digitNumber_eq_iff (hv : v < 2 ^ x.dimensions) :
    x.digitNumber d = v ↔ ∀ c < x.dimensions, x.bit d c = v.testBit c := by
  rw [eq_iff_testBit_of_lt (x.digitNumber_lt d) hv]
  exact forall₂_congr fun c hc => by rw [testBit_digitNumber x d hc]

theorem toNat_coordinateBits_eq_iff (hv : v < 2 ^ x.digits) :
    toNat (x.coordinateBits c) = v ↔
      ∀ d < x.digits, x.bit d c = v.testBit (x.digits - 1 - d) := by
  rw [eq_iff_testBit_of_lt (x.toNat_coordinateBits_lt c) hv]
  constructor
  · intro h d hd
    rw [← h _ (by omega), testBit_toNat_coordinateBits x c (by omega)]
    congr 1
    omega
  · intro h k hk
    rw [testBit_toNat_coordinateBits x c hk, h _ (by omega)]
    congr 1
    omega

/-! ## When a write succeeds -/

theorem wordBit_eq (word : UInt64) (i : Nat) : wordBit word i = word.toNat.testBit i := by
  rw [wordBit]
  by_cases hi : i < wordBits
  · simp [hi]
  · have hpow : 2 ^ 64 ≤ 2 ^ i := Nat.pow_le_pow_right Nat.two_pos (Nat.le_of_not_lt hi)
    simp [hi, Nat.testBit_lt_two_pow (word.toNat_lt.trans_le hpow)]

theorem checkIndex_eq_ok_iff {kind : IndexKind} : checkIndex kind i k = .ok () ↔ i < k := by
  rw [checkIndex]
  split <;> simp [*]

/-- A word fits a cell if its number does: a cell of 64 bits or more has place
    for every word. -/
theorem checkFits_eq_ok_iff : checkFits word k = .ok () ↔ word.toNat < 2 ^ k := by
  rw [checkFits]
  split
  · rename_i h
    exact iff_of_false nofun (Nat.not_lt.2 h.2)
  · rename_i h
    refine iff_of_true rfl (Nat.lt_of_not_le fun hle => h ⟨?_, hle⟩)
    exact (Nat.pow_lt_pow_iff_right Nat.one_lt_two).1 (hle.trans_lt word.toNat_lt)

/-- A write succeeds if the cell exists and the word fits it. -/
theorem checkedWrite_eq_ok_iff {kind : IndexKind} :
    (do checkIndex kind i j; checkFits word k; return z : Except IdentifierError Identifier) =
        .ok y ↔ (i < j ∧ word.toNat < 2 ^ k) ∧ z = y := by
  constructor
  · intro h
    obtain ⟨⟨⟩, hi, h⟩ := bind_eq_ok h
    obtain ⟨⟨⟩, hfit, h⟩ := bind_eq_ok h
    exact ⟨⟨checkIndex_eq_ok_iff.1 hi, checkFits_eq_ok_iff.1 hfit⟩, Except.ok.inj h⟩
  · rintro ⟨⟨hi, hfit⟩, rfl⟩
    rw [checkIndex_eq_ok_iff.2 hi, checkFits_eq_ok_iff.2 hfit]
    rfl

theorem setDigit_eq_ok_iff : x.setDigit d word = .ok y ↔
    (d < x.digits ∧ word.toNat < 2 ^ x.dimensions) ∧
      x.overwrite (x.shape.rowCells d) (fun _ c => wordBit word c) = y :=
  checkedWrite_eq_ok_iff

theorem setCoordinate_eq_ok_iff : x.setCoordinate c word = .ok y ↔
    (c < x.dimensions ∧ word.toNat < 2 ^ x.digits) ∧
      x.overwrite (x.shape.columnCells c) (fun d _ => wordBit word (x.digits - 1 - d)) = y :=
  checkedWrite_eq_ok_iff

theorem exists_setDigit_iff : (∃ y, x.setDigit d word = .ok y) ↔
    d < x.digits ∧ word.toNat < 2 ^ x.dimensions := by
  simp [setDigit_eq_ok_iff]

theorem exists_setCoordinate_iff : (∃ y, x.setCoordinate c word = .ok y) ↔
    c < x.dimensions ∧ word.toNat < 2 ^ x.digits := by
  simp [setCoordinate_eq_ok_iff]

/-! ## What a write leaves -/

theorem shape_setDigit (h : x.setDigit d word = .ok y) : y.shape = x.shape := by
  obtain ⟨-, rfl⟩ := setDigit_eq_ok_iff.1 h
  rfl

theorem shape_setCoordinate (h : x.setCoordinate c word = .ok y) : y.shape = x.shape := by
  obtain ⟨-, rfl⟩ := setCoordinate_eq_ok_iff.1 h
  rfl

theorem bit_setDigit (h : x.setDigit d word = .ok y) (hj : j < x.digits) (hc : c < x.dimensions) :
    y.bit j c = if j = d then word.toNat.testBit c else x.bit j c := by
  obtain ⟨⟨hd, -⟩, rfl⟩ := setDigit_eq_ok_iff.1 h
  rw [bit_overwrite x _ _ (fun _ hp => (Shape.lt_of_mem_rowCells hd hp).2) hj hc, wordBit_eq]
  simp [Shape.rowCells, hc, eq_comm]

theorem bit_setCoordinate (h : x.setCoordinate c word = .ok y) (hd : d < x.digits)
    (hi : i < x.dimensions) :
    y.bit d i = if i = c then word.toNat.testBit (x.digits - 1 - d) else x.bit d i := by
  obtain ⟨⟨hc, -⟩, rfl⟩ := setCoordinate_eq_ok_iff.1 h
  rw [bit_overwrite x _ _ (fun _ hp => (Shape.lt_of_mem_columnCells hc hp).2) hd hi, wordBit_eq]
  simp [Shape.columnCells, hd, eq_comm]

/-- `y` is `x` with digit `d` replaced by the number `v`. -/
structure IsDigitWrite (x y : Identifier) (d v : Nat) : Prop where
  shape : y.shape = x.shape
  /-- The digit is the number, so bits of the digit that the number has no place
      for are cleared. -/
  number : y.digitNumber d = v
  /-- The digit is read as the number, without rounding. -/
  read : (y.digit d : Except IdentifierError ℝ) = .ok v
  digitBits : ∀ j < x.digits, j ≠ d → y.digitBits j = x.digitBits j
  /-- One bit of each coordinate is a bit of the number. -/
  coordinate : ∀ c < x.dimensions, ∀ k, (toNat (y.coordinateBits c)).testBit k =
    if k = x.digits - 1 - d then v.testBit c else (toNat (x.coordinateBits c)).testBit k

/-- `y` is `x` with coordinate `c` replaced by the number `v`. -/
structure IsCoordinateWrite (x y : Identifier) (c v : Nat) : Prop where
  shape : y.shape = x.shape
  /-- The coordinate is the number, so bits of the coordinate that the number has
      no place for are cleared. -/
  number : toNat (y.coordinateBits c) = v
  /-- The coordinate is read as the number, without rounding. -/
  read : (y.coordinate c : Except IdentifierError ℝ) = .ok v
  coordinateBits : ∀ i < x.dimensions, i ≠ c → y.coordinateBits i = x.coordinateBits i
  /-- One bit of each digit is a bit of the number. -/
  digit : ∀ d < x.digits, ∀ k, (y.digitNumber d).testBit k =
    if k = c then v.testBit (x.digits - 1 - d) else (x.digitNumber d).testBit k

/-- **What both ways to read an identifier show of a digit that is written.** -/
theorem isDigitWrite_of_setDigit (h : x.setDigit d word = .ok y) :
    IsDigitWrite x y d word.toNat := by
  have hs := shape_setDigit h
  have hD : y.dimensions = x.dimensions := congrArg Shape.dimensions hs
  have hn : y.digits = x.digits := congrArg Shape.digits hs
  obtain ⟨hd, hfit⟩ := exists_setDigit_iff.1 ⟨y, h⟩
  have hnumber : y.digitNumber d = word.toNat :=
    (digitNumber_eq_iff (hD ▸ hfit)).2 fun c hc => by
      rw [bit_setDigit h hd (hD ▸ hc), if_pos rfl]
  refine ⟨hs, hnumber, ?_, fun j hj hne => ?_, fun c hc k => ?_⟩
  · rw [digit, checkIndex_eq_ok_iff.2 (hn ▸ hd), ok_bind, BitString.toScalar_real, ← digitNumber,
      hnumber]
    rfl
  · refine (digitBits_eq_iff hD).2 fun c hc => ?_
    rw [bit_setDigit h hj (hD ▸ hc), if_neg hne]
  · rcases Nat.lt_or_ge k x.digits with hk | hk
    · rw [testBit_toNat_coordinateBits y c (hn ▸ hk), testBit_toNat_coordinateBits x c hk, hn,
        bit_setDigit h (by omega) hc]
      exact if_congr (by omega) rfl rfl
    · rw [testBit_toNat_coordinateBits_of_le y c (hn ▸ hk),
        testBit_toNat_coordinateBits_of_le x c hk, if_neg (by omega)]

/-- **What both ways to read an identifier show of a coordinate that is
    written.** -/
theorem isCoordinateWrite_of_setCoordinate (h : x.setCoordinate c word = .ok y) :
    IsCoordinateWrite x y c word.toNat := by
  have hs := shape_setCoordinate h
  have hD : y.dimensions = x.dimensions := congrArg Shape.dimensions hs
  have hn : y.digits = x.digits := congrArg Shape.digits hs
  obtain ⟨hc, hfit⟩ := exists_setCoordinate_iff.1 ⟨y, h⟩
  have hnumber : toNat (y.coordinateBits c) = word.toNat :=
    (toNat_coordinateBits_eq_iff (hn ▸ hfit)).2 fun d hd => by
      rw [bit_setCoordinate h (hn ▸ hd) hc, if_pos rfl, hn]
  refine ⟨hs, hnumber, ?_, fun i hi hne => ?_, fun d hd k => ?_⟩
  · rw [coordinate, checkIndex_eq_ok_iff.2 (hD ▸ hc), ok_bind, BitString.toScalar_real, hnumber]
    rfl
  · rw [coordinateBits, coordinateBits, hn]
    refine List.map_congr_left fun d hd => ?_
    rw [bit_setCoordinate h (List.mem_range.1 hd) hi, if_neg hne]
  · rcases Nat.lt_or_ge k x.dimensions with hk | hk
    · rw [testBit_digitNumber y d (hD ▸ hk), testBit_digitNumber x d hk,
        bit_setCoordinate h hd hk]
    · rw [testBit_digitNumber_of_le y d (hD ▸ hk), testBit_digitNumber_of_le x d hk,
        if_neg (by omega)]

/-! ## Writes as writes of single bits -/

/-- A write to a digit or to a coordinate. -/
inductive CellWrite
  | digit (d : Nat) (word : UInt64)
  | coordinate (c : Nat) (word : UInt64)

namespace CellWrite

/-- What a write makes of an identifier.  A write that fails leaves it as it
    is. -/
def apply (x : Identifier) : CellWrite → Identifier
  | digit d word => (x.setDigit d word).toOption.getD x
  | coordinate c word => (x.setCoordinate c word).toOption.getD x

/-- The stored bits that a write sets, with their new values. -/
def bits (s : Shape) : CellWrite → List (Nat × Bool)
  | digit d word =>
    if d < s.digits ∧ word.toNat < 2 ^ s.dimensions then
      (s.rowCells d).map fun (j, c) => (j * s.dimensions + c, word.toNat.testBit c)
    else []
  | coordinate c word =>
    if c < s.dimensions ∧ word.toNat < 2 ^ s.digits then
      (s.columnCells c).map fun (d, i) =>
        (d * s.dimensions + i, word.toNat.testBit (s.digits - 1 - d))
    else []

end CellWrite

/-- The identifier with some of the stored bits replaced. -/
def setBits (x : Identifier) (bits : List (Nat × Bool)) : Except IdentifierError Identifier :=
  bits.foldlM (fun y (i, b) => y.set i b) x

theorem setBits_cons (x : Identifier) (p : Nat × Bool) (bits : List (Nat × Bool)) :
    x.setBits (p :: bits) = x.set p.1 p.2 >>= (setBits · bits) := List.foldlM_cons ..

theorem setBits_append (x : Identifier) (bits bits' : List (Nat × Bool)) :
    x.setBits (bits ++ bits') = x.setBits bits >>= (setBits · bits') := List.foldlM_append ..

/-- Cells are overwritten bit by bit. -/
theorem setBits_map_cells (cells : List (Nat × Nat)) (value : Nat → Nat → Bool) (x : Identifier)
    (hcells : ∀ p ∈ cells, p.1 < x.digits ∧ p.2 < x.dimensions) :
    x.setBits (cells.map fun p => (p.1 * x.dimensions + p.2, value p.1 p.2)) =
      .ok (x.overwrite cells value) := by
  induction cells generalizing x with
  | nil => rfl
  | cons p cells ih =>
    obtain ⟨hd, hc⟩ := hcells p (List.mem_cons_self ..)
    have hset : ∃ y, x.set (p.1 * x.dimensions + p.2) (value p.1 p.2) = .ok y ∧
        y.shape = x.shape ∧ y.overwrite cells value = x.overwrite (p :: cells) value := by
      rw [set, checkIndex_eq_ok_iff.2 (x.shape.index_lt hd hc)]
      exact ⟨_, rfl, rfl, rfl⟩
    obtain ⟨y, hy, hs, hover⟩ := hset
    have hD : x.dimensions = y.dimensions := congrArg Shape.dimensions hs.symm
    rw [List.map_cons, setBits_cons, hy, ok_bind, ← hover, hD]
    refine ih y fun q hq => ?_
    rw [digits, dimensions, hs]
    exact hcells q (List.mem_cons_of_mem p hq)

/-- What is left of a write: either it overwrites cells or it fails. -/
theorem setBits_write {p : Prop} [Decidable p] {write : Except IdentifierError Identifier}
    {cells : List (Nat × Nat)} {value : Nat → Nat → Bool}
    (hwrite : ∀ y, write = .ok y ↔ p ∧ x.overwrite cells value = y)
    (hcells : p → ∀ q ∈ cells, q.1 < x.digits ∧ q.2 < x.dimensions) :
    x.setBits (if p then cells.map fun q => (q.1 * x.dimensions + q.2, value q.1 q.2) else []) =
      .ok (write.toOption.getD x) := by
  split
  · rename_i hp
    rw [(hwrite _).2 ⟨hp, rfl⟩]
    exact setBits_map_cells cells value x (hcells hp)
  · rename_i hp
    cases hok : write with
    | error e => rfl
    | ok y => exact absurd ((hwrite y).1 hok).1 hp

/-- **A write is a write of single bits.** -/
theorem setBits_cellWrite (x : Identifier) (w : CellWrite) :
    x.setBits (w.bits x.shape) = .ok (w.apply x) := by
  cases w with
  | digit d word =>
    have h := setBits_write (fun y => @setDigit_eq_ok_iff x y d word)
      fun hp q => Shape.lt_of_mem_rowCells hp.1
    simp only [wordBit_eq] at h
    exact h
  | coordinate c word =>
    have h := setBits_write (fun y => @setCoordinate_eq_ok_iff x y c word)
      fun hp q => Shape.lt_of_mem_columnCells hp.1
    simp only [wordBit_eq] at h
    exact h

theorem shape_getD {write : Except IdentifierError Identifier}
    (h : ∀ y, write = .ok y → y.shape = x.shape) : (write.toOption.getD x).shape = x.shape := by
  cases write with
  | error e => rfl
  | ok y => exact h y rfl

theorem CellWrite.shape_apply (x : Identifier) (w : CellWrite) : (w.apply x).shape = x.shape := by
  cases w with
  | digit d word => exact shape_getD fun _ => shape_setDigit
  | coordinate c word => exact shape_getD fun _ => shape_setCoordinate

/-- **Any writes are writes of single bits.** -/
theorem setBits_cellWrites (x : Identifier) (ws : List CellWrite) :
    x.setBits (ws.flatMap (CellWrite.bits x.shape)) = .ok (ws.foldl CellWrite.apply x) := by
  induction ws generalizing x with
  | nil => rfl
  | cons w ws ih =>
    rw [List.flatMap_cons, setBits_append, setBits_cellWrite, ok_bind, ← w.shape_apply x, ih,
      List.foldl_cons]

/-! ## Identifiers that are made of digits -/

theorem digitNumber_zero (s : Shape) (d : Nat) : (zero s).digitNumber d = 0 := by
  refine (digitNumber_eq_iff (Nat.two_pow_pos _)).2 fun c _ => ?_
  rw [Nat.zero_testBit, bit, zero, Array.getD_eq_getD_getElem?, Array.getElem?_replicate]
  split <;> rfl

/-- The digits that are written to an empty identifier, digit 0 first. -/
def writeDigits (s : Shape) (words : List UInt64) : Except IdentifierError Identifier :=
  words.zipIdx.foldlM (fun x (word, d) => x.setDigit d word) (zero s)

theorem writeDigits_concat (s : Shape) (words : List UInt64) (word : UInt64) :
    writeDigits s (words ++ [word]) =
      writeDigits s words >>= fun x => x.setDigit words.length word := by
  rw [writeDigits, List.zipIdx_append, List.foldlM_append]
  refine congrArg (writeDigits s words >>= ·) (funext fun x => ?_)
  simp

/-- Digits that are written one after another are as they were written, and
    those that are left out are zero. -/
theorem digitNumber_of_writeDigits {words : List UInt64} (h : writeDigits s words = .ok y) :
    y.shape = s ∧ ∀ j < s.digits, y.digitNumber j = (words.getD j 0).toNat := by
  induction words using List.reverseRecOn generalizing y with
  | nil =>
    cases h
    exact ⟨rfl, fun j _ => digitNumber_zero s j⟩
  | append_singleton words word ih =>
    rw [writeDigits_concat] at h
    obtain ⟨z, hz, hlast⟩ := bind_eq_ok h
    obtain ⟨rfl, hdigits⟩ := ih hz
    have hwrite := isDigitWrite_of_setDigit hlast
    refine ⟨hwrite.shape, fun j hj => ?_⟩
    rcases Nat.lt_trichotomy j words.length with hlt | rfl | hgt
    · rw [digitNumber, hwrite.digitBits j hj hlt.ne, ← digitNumber, hdigits j hj,
        List.getD_append _ _ _ _ hlt]
    · rw [hwrite.number]
      simp
    · rw [digitNumber, hwrite.digitBits j hj hgt.ne', ← digitNumber, hdigits j hj,
        List.getD_eq_default _ _ hgt.le, List.getD_eq_default _ _ (by simpa using hgt)]

theorem exists_writeDigits {words : List UInt64} (hlen : words.length ≤ s.digits)
    (hfit : ∀ word ∈ words, word.toNat < 2 ^ s.dimensions) :
    ∃ y, writeDigits s words = .ok y := by
  induction words using List.reverseRecOn with
  | nil => exact ⟨_, rfl⟩
  | append_singleton words word ih =>
    rw [List.length_append, List.length_singleton] at hlen
    obtain ⟨z, hz⟩ := ih (by omega) fun w hw => hfit w (List.mem_append_left _ hw)
    obtain ⟨rfl, -⟩ := digitNumber_of_writeDigits hz
    obtain ⟨y, hy⟩ := exists_setDigit_iff.2 ⟨hlen, hfit word (by simp)⟩
    refine ⟨y, ?_⟩
    rw [writeDigits_concat, hz, ok_bind, hy]

theorem ofDigits_eq_writeDigits {words : List UInt64} (hlen : words.length = s.digits) :
    ofDigits s words = writeDigits s words := if_neg (not_not.2 hlen)

/-- Identifiers of one shape are equal if their digits are. -/
theorem ext_digitNumber (hs : x.shape = y.shape)
    (h : ∀ d < x.digits, x.digitNumber d = y.digitNumber d) : x = y := by
  refine ext_bits hs fun d hd c hc => ?_
  have hc' : c < y.dimensions := by rwa [dimensions, ← hs]
  rw [← testBit_digitNumber x d hc, ← testBit_digitNumber y d hc', h d hd]

/-- **An identifier that is made of digits has these digits.** -/
theorem ofDigits_eq_ok_iff {words : List UInt64} (hD : s.dimensions < wordBits) :
    ofDigits s words = .ok x ↔ x.shape = s ∧ words.length = s.digits ∧
      ∀ d (h : d < words.length), x.digitNat d = .ok words[d].toNat := by
  constructor
  · intro h
    have hlen : words.length = s.digits := by
      by_contra hne
      rw [ofDigits, if_pos hne] at h
      cases h
    rw [ofDigits_eq_writeDigits hlen] at h
    obtain ⟨rfl, hdigits⟩ := digitNumber_of_writeDigits h
    refine ⟨rfl, hlen, fun d hd => ?_⟩
    have hlt : d < x.digits := lt_of_lt_of_eq hd hlen
    rw [digitNat_eq_digitNumber hD hlt, hdigits d hlt, List.getD_eq_getElem _ _ hd]
  · rintro ⟨rfl, hlen, hdigits⟩
    have hnumber : ∀ d (h : d < words.length), x.digitNumber d = words[d].toNat := fun d h => by
      have hread := digitNat_eq_digitNumber hD (lt_of_lt_of_eq h hlen)
      exact Except.ok.inj (hread.symm.trans (hdigits d h))
    obtain ⟨y, hy⟩ := exists_writeDigits (s := x.shape) hlen.le fun word hword => by
      obtain ⟨d, hd, rfl⟩ := List.getElem_of_mem hword
      exact hnumber d hd ▸ x.digitNumber_lt d
    obtain ⟨hs, hread⟩ := digitNumber_of_writeDigits hy
    rw [ofDigits_eq_writeDigits hlen, hy]
    refine congrArg _ (ext_digitNumber hs fun d hd => ?_)
    have hd : d < words.length := by rwa [digits, hs, ← hlen] at hd
    rw [hread d (lt_of_lt_of_eq hd hlen), List.getD_eq_getElem _ _ hd, hnumber d hd]

/-- Every identifier of few dimensions is made of its digits. -/
theorem exists_ofDigits (hD : x.dimensions < wordBits) :
    ∃ words, ofDigits x.shape words = .ok x := by
  refine ⟨(List.range x.digits).map fun d => UInt64.ofNat (x.digitNumber d), ?_⟩
  refine (ofDigits_eq_ok_iff hD).2 ⟨rfl, by simp, fun d hd => ?_⟩
  have hd : d < x.digits := by simpa using hd
  have hlt : x.digitNumber d < 2 ^ 64 :=
    (x.digitNumber_lt d).trans_le (Nat.pow_le_pow_right Nat.two_pos hD.le)
  rw [digitNat_eq_digitNumber hD hd, List.getElem_map, List.getElem_range,
    UInt64.toNat_ofNat_of_lt' hlt]

/-- **Digits and coordinates are written lawfully.**  A write succeeds if the
    cell exists and the word fits it.  Then it replaces the cell and leaves the
    others of its kind, and it replaces one bit of each cell of the other kind.
    Any writes, of which some may fail, are writes of single bits, and up to 63
    dimensions the identifiers are their digits. -/
theorem cell_writes_lawful :
    (∀ (x : Identifier) (d : Nat) (word : UInt64),
      ((∃ y, x.setDigit d word = .ok y) ↔ d < x.digits ∧ word.toNat < 2 ^ x.dimensions) ∧
      ∀ y, x.setDigit d word = .ok y → IsDigitWrite x y d word.toNat) ∧
    (∀ (x : Identifier) (c : Nat) (word : UInt64),
      ((∃ y, x.setCoordinate c word = .ok y) ↔
        c < x.dimensions ∧ word.toNat < 2 ^ x.digits) ∧
      ∀ y, x.setCoordinate c word = .ok y → IsCoordinateWrite x y c word.toNat) ∧
    (∀ (x : Identifier) (ws : List CellWrite),
      x.setBits (ws.flatMap (CellWrite.bits x.shape)) = .ok (ws.foldl CellWrite.apply x)) ∧
    (∀ (s : Shape) (words : List UInt64) (x : Identifier), s.dimensions < wordBits →
      (ofDigits s words = .ok x ↔ x.shape = s ∧ words.length = s.digits ∧
        ∀ d (h : d < words.length), x.digitNat d = .ok words[d].toNat)) ∧
    ∀ x : Identifier, x.dimensions < wordBits → ∃ words, ofDigits x.shape words = .ok x := by
  exact ⟨fun x d word => ⟨exists_setDigit_iff, fun y => isDigitWrite_of_setDigit⟩,
    fun x c word => ⟨exists_setCoordinate_iff, fun y => isCoordinateWrite_of_setCoordinate⟩,
    setBits_cellWrites, fun s words x hD => ofDigits_eq_ok_iff hD, fun x hD => exists_ofDigits hD⟩

/-- A digit of 70 bits and a coordinate of two bits share a cell, in which one
    write leaves a zero and the other one a one. -/
theorem cell_writes_lawful_crossing :
    let x := ofFn (.mk 70 2) fun _ => true
    (∃ y, x.setDigit 1 5 = .ok y ∧ y.digitNumber 1 = 5 ∧ y.digitBits 0 = x.digitBits 0 ∧
      (toNat (y.coordinateBits 69)).testBit 0 = false) ∧
    (∃ y, x.setCoordinate 69 1 = .ok y ∧ toNat (y.coordinateBits 69) = 1 ∧
      (y.digitNumber 1).testBit 69 = true) ∧
    ∃ words, ofDigits (.mk 2 3) words = .ok (ofFn (.mk 2 3) (· == 4)) ∧ words.length = 3 := by
  intro x
  obtain ⟨hdigit, hcoordinate, -, hdigits, hwords⟩ := cell_writes_lawful
  refine ⟨?_, ?_, ?_⟩
  · obtain ⟨y, hy⟩ := (hdigit x 1 5).1.2 (by decide)
    have hwrite := (hdigit x 1 5).2 y hy
    refine ⟨y, hy, hwrite.number, hwrite.digitBits 0 (by decide) (by decide), ?_⟩
    rw [hwrite.coordinate 69 (by decide)]
    decide
  · obtain ⟨y, hy⟩ := (hcoordinate x 69 1).1.2 (by decide)
    have hwrite := (hcoordinate x 69 1).2 y hy
    refine ⟨y, hy, hwrite.number, ?_⟩
    rw [hwrite.digit 1 (by decide)]
    decide
  · obtain ⟨words, h⟩ := hwords (ofFn (.mk 2 3) (· == 4)) (by decide)
    exact ⟨words, h, ((hdigits _ words _ (by decide)).1 h).2.1⟩

end Identifier

end CubeRouting
