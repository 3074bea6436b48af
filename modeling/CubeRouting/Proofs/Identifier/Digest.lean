/-
  What the hash of an identifier reads.

  The message of the hash is its cells, one after another, each cut into words.
  How many words a cell makes depends on its length only, and cells of one
  length with the same words are the same.  So the message of an identifier
  determines it, and two of one shape with the same hash are a collision of the
  keyed hash.

  * `length_cellWords`, `cellWords_inj`: the words of one cell;
  * `flatMap_cellWords_inj`: the words of several cells;
  * `hashCells_inj`: the cells that the hash reads;
  * `message_lossless`: the message.
-/
import CubeRouting.Identifier.Digest
import CubeRouting.Proofs.Identifier.Coordinates

namespace CubeRouting

/-! ## Words of a cell -/

/-- The number of words of a cell of `bits` bits. -/
def wordsPerCell (bits : Nat) : Nat := (bits + wordBits - 1) / wordBits

theorem length_chunks {α : Type} (k : Nat) (l : List α) :
    (chunks k l).length = (l.length + k) / (k + 1) := by
  induction l using chunks.induct k with
  | case1 => simp [chunks, Nat.div_eq_of_lt k.lt_succ_self]
  | case2 a l ih =>
    have hlast : l.length + 1 + k = l.length + (k + 1) := by omega
    rw [chunks, List.length_cons, ih, List.length_drop, List.length_cons, hlast,
      Nat.add_div_right _ k.succ_pos]
    rcases Nat.le_total k l.length with hle | hle
    · rw [Nat.sub_add_cancel hle]
    · -- the first chunk is the last one
      rw [Nat.sub_eq_zero_of_le hle, Nat.zero_add, Nat.div_eq_of_lt k.lt_succ_self,
        Nat.div_eq_of_lt (Nat.lt_succ_of_le hle)]

theorem length_cellWords (cell : BitString) :
    (cellWords cell).length = wordsPerCell cell.length := by
  rw [cellWords, List.length_map, length_chunks]
  rfl

theorem cellWords_cons (b : Bool) (cell : BitString) :
    cellWords (b :: cell) = UInt64.ofNat (BitString.toNat (b :: cell.take (wordBits - 1))) ::
      cellWords (cell.drop (wordBits - 1)) := by
  rw [cellWords, chunks, List.map_cons]
  rfl

/-- A chunk that fits a word can be read back from it. -/
theorem chunk_inj {x y : BitString} (hlen : x.length = y.length) (hfits : x.length ≤ wordBits)
    (h : UInt64.ofNat x.toNat = UInt64.ofNat y.toNat) : x = y := by
  have hlt : ∀ z : BitString, z.length ≤ wordBits → z.toNat < UInt64.size := fun z hz =>
    z.toNat_lt.trans_le (Nat.pow_le_pow_right Nat.two_pos hz)
  have hnat := congrArg UInt64.toNat h
  rw [UInt64.toNat_ofNat_of_lt' (hlt x hfits),
    UInt64.toNat_ofNat_of_lt' (hlt y (hlen ▸ hfits))] at hnat
  exact BitString.toNat_inj hlen hnat

/-- **Cells of one length with the same words are the same.** -/
theorem cellWords_inj {x y : BitString} (hlen : x.length = y.length)
    (h : cellWords x = cellWords y) : x = y := by
  induction x using chunks.induct (wordBits - 1) generalizing y with
  | case1 => exact (List.length_eq_zero_iff.1 hlen.symm).symm
  | case2 b x ih =>
    cases y with
    | nil => cases hlen
    | cons b' y =>
      have hlen : x.length = y.length := Nat.succ.inj hlen
      rw [cellWords_cons, cellWords_cons] at h
      obtain ⟨hword, hwords⟩ := List.cons.inj h
      have hfirst : b :: x.take (wordBits - 1) = b' :: y.take (wordBits - 1) := by
        refine chunk_inj (by simp [hlen]) ?_ hword
        rw [List.length_cons, List.length_take]
        exact Nat.succ_le_succ (Nat.min_le_left (wordBits - 1) _)
      have hrest : x.drop (wordBits - 1) = y.drop (wordBits - 1) := ih (by simp [hlen]) hwords
      obtain ⟨rfl, htake⟩ := List.cons.inj hfirst
      rw [← List.take_append_drop (wordBits - 1) x, htake, hrest, List.take_append_drop]

/-- **The words of cells determine them**, if their lengths are known. -/
theorem flatMap_cellWords_inj {xs ys : List BitString}
    (hlen : xs.map List.length = ys.map List.length)
    (h : xs.flatMap cellWords = ys.flatMap cellWords) : xs = ys := by
  induction xs generalizing ys with
  | nil => exact (List.map_eq_nil_iff.1 hlen.symm).symm
  | cons x xs ih =>
    cases ys with
    | nil => cases hlen
    | cons y ys =>
      obtain ⟨hx, hxs⟩ := List.cons.inj hlen
      obtain ⟨hfirst, hrest⟩ := List.append_inj h (by rw [length_cellWords, length_cellWords, hx])
      rw [cellWords_inj hx hfirst, ih hxs hrest]

/-! ## Cells of an identifier -/

/-- The number of words of the message of an identifier: those of its
    coordinates, or those of its digits. -/
def Shape.messageLength (s : Shape) : Nat :=
  if s.dimensions ≤ s.digits then s.dimensions * wordsPerCell s.digits
  else s.digits * wordsPerCell s.dimensions

namespace Identifier

variable {x y : Identifier}

/-- How many cells the hash reads, and how long they are. -/
theorem map_length_hashCells (x : Identifier) : x.hashCells.map List.length =
    if x.dimensions ≤ x.digits then List.replicate x.dimensions x.digits
    else List.replicate x.digits x.dimensions := by
  unfold hashCells
  split <;> simp [Function.comp_def, List.map_const']

/-- **The cells that the hash reads determine the identifier.** -/
theorem hashCells_inj (hs : x.shape = y.shape) (h : x.hashCells = y.hashCells) : x = y := by
  have hD : x.dimensions = y.dimensions := congrArg Shape.dimensions hs
  have hn : x.digits = y.digits := congrArg Shape.digits hs
  unfold hashCells at h
  rw [← hD, ← hn] at h
  split at h
  · exact ext_coordinateBits hs fun c hc => List.map_inj_left.1 h c (List.mem_range.2 hc)
  · exact SharesPrefix.eq hs fun d hd => List.map_inj_left.1 h d (List.mem_range.2 hd)

theorem length_hashMessage (x : Identifier) : x.hashMessage.length = x.shape.messageLength := by
  have hwords : x.hashMessage.length = ((x.hashCells.map List.length).map wordsPerCell).sum := by
    simp [hashMessage, List.length_flatMap, length_cellWords, Function.comp_def]
  rw [hwords, map_length_hashCells, Shape.messageLength]
  split <;> simp

theorem hashMessage_inj (hs : x.shape = y.shape) (h : x.hashMessage = y.hashMessage) : x = y := by
  refine hashCells_inj hs (flatMap_cellWords_inj ?_ h)
  rw [map_length_hashCells, map_length_hashCells, dimensions, digits, hs]

/-- **The message of the hash loses nothing.**  How many words it has depends on
    the shape only, and identifiers of one shape with the same message are the
    same.  So if two of them have the same hash, the keyed hash does not tell
    two messages apart. -/
theorem message_lossless :
    (∀ x : Identifier, x.hashMessage.length = x.shape.messageLength) ∧
    ∀ x y : Identifier, x.shape = y.shape →
      (x.hashMessage = y.hashMessage ↔ x = y) ∧
      (x.hash = y.hash ↔ x = y ∨ x.hashMessage ≠ y.hashMessage ∧
        SipHash.hash (shapeKey x.shape) fixedKey x.hashMessage =
          SipHash.hash (shapeKey x.shape) fixedKey y.hashMessage) := by
  refine ⟨length_hashMessage, fun x y hs => ?_⟩
  have hmessage : x.hashMessage = y.hashMessage ↔ x = y :=
    ⟨hashMessage_inj hs, congrArg hashMessage⟩
  have hhash : x.hash = y.hash ↔ SipHash.hash (shapeKey x.shape) fixedKey x.hashMessage =
      SipHash.hash (shapeKey x.shape) fixedKey y.hashMessage := by
    rw [hash, hash, hs]
  refine ⟨hmessage, ?_⟩
  rw [hhash, ne_eq, hmessage]
  constructor
  · intro h
    exact (em (x = y)).imp_right fun hne => ⟨hne, h⟩
  · rintro (rfl | ⟨-, h⟩)
    · rfl
    · exact h

/-- The last bit of an identifier is in the short last chunk of its last cell,
    whether the cells are coordinates or digits. -/
theorem message_lossless_lastBit :
    (∀ s ∈ [Shape.mk 2 70, Shape.mk 70 2], (zero s).hashMessage.length = 4) ∧
    ∀ s ∈ [Shape.mk 2 70, Shape.mk 70 2],
      (zero s).hashMessage ≠ (ofFn s (· == 139)).hashMessage := by
  refine ⟨fun s hs => ?_, fun s hs heq => ?_⟩
  · rw [message_lossless.1]
    revert s
    decide
  · have hsame := (message_lossless.2 (zero s) (ofFn s (· == 139)) rfl).1.1 heq
    have hlast := congrArg (·.bit (s.digits - 1) (s.dimensions - 1)) hsame
    simp only [List.mem_cons, List.not_mem_nil, or_false] at hs
    rcases hs with rfl | rfl
    all_goals
      rw [bit_ofFn _ _ (by decide) (by decide)] at hlast
      revert hlast
      decide +kernel

end Identifier

end CubeRouting
