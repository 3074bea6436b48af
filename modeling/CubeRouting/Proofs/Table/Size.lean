/-
  How many entries a table has.

  * `size_remove`, `size_insert`, `Edits.size_eq`: one operation on a table;
  * `WellFormed.size_removeAll`: the entries that are returned are those that
    are gone;
  * `Placed.size_eq`: a placement adds the candidate and takes out the peer that
    had to go.
-/
import CubeRouting.Proofs.Placement.Report

namespace CubeRouting

/-! ## One table -/

namespace SubTable

variable {t t' : SubTable} {e : Entry} {hash : UInt64}

theorem Edits.size_eq (h : t'.Edits t) : t'.size = t.size := by rw [size, size, h.index]

theorem size_modify (t : SubTable) (hash : UInt64) (f : Entry → Entry) :
    (t.modify hash f).size = t.size := by
  unfold modify
  split <;> rfl

theorem size_modifyAll (t : SubTable) (f : Entry → Entry) : (t.modifyAll f).size = t.size := rfl

/-- An entry that is accepted is one more. -/
theorem size_insert (ha : t.accepts e = true) (position : Nat) :
    (t.insert position e).size = t.size + 1 := by
  have hnew : t.index.contains e.hash = false := (accepts_iff.1 ha).2
  rw [insert, if_pos ha]
  change (t.index.insert e.hash e.slot.index).size = t.index.size + 1
  rw [Std.ExtTreeMap.size_insert, hnew, if_neg Bool.false_ne_true]

/-- A peer that is removed is one less. -/
theorem size_remove (hc : t.contains hash = true) : (t.remove hash).1.size + 1 = t.size := by
  have hmem : hash ∈ t.index := Std.ExtTreeMap.contains_iff_mem.1 hc
  have hpos : 0 < t.index.size := by
    rw [← Std.ExtTreeMap.length_keys]
    exact List.length_pos_of_mem (Std.ExtTreeMap.mem_keys.2 hmem)
  have hindex : (t.remove hash).1.index = t.index.erase hash := by
    unfold remove
    split
    · rename_i hnone
      rw [Std.ExtTreeMap.mem_iff_isSome_getElem?, hnone] at hmem
      cases hmem
    · rfl
  have herase : (t.index.erase hash).size = t.index.size - 1 := by
    rw [Std.ExtTreeMap.size_erase, show t.index.contains hash = true from hc, if_pos rfl]
  rw [size, size, hindex, herase]
  omega

theorem remove_of_not_contains (hc : t.contains hash = false) : t.remove hash = (t, none) := by
  rw [contains, Std.ExtTreeMap.contains_eq_isSome_getElem?, Option.isSome_eq_false_iff,
    Option.isNone_iff_eq_none] at hc
  unfold remove
  rw [hc]

section
variable (hw : t.WellFormed)
include hw

/-- A removal returns the entry of a peer that the table has. -/
theorem WellFormed.isSome_remove (hc : t.contains hash = true) :
    (t.remove hash).2.isSome = true := by
  obtain ⟨e, he, rfl⟩ := hw.contains_iff.1 hc
  obtain ⟨i, hi⟩ := mem_entries.1 he
  unfold SubTable.remove
  rw [hw.index_eq hi]
  change (((t.slot i).find? (·.hash == e.hash)).map Entry.discard).isSome = true
  rw [Option.isSome_map, List.find?_isSome]
  exact ⟨e, hi, beq_self_eq_true e.hash⟩

/-- The entry that a removal returns is one less. -/
theorem WellFormed.size_remove_add (hash : UInt64) :
    (t.remove hash).1.size + (t.remove hash).2.toList.length = t.size := by
  by_cases hc : t.contains hash = true
  · obtain ⟨e, he⟩ := Option.isSome_iff_exists.1 (hw.isSome_remove hc)
    rw [he]
    exact size_remove hc
  · rw [remove_of_not_contains (by simpa using hc)]
    rfl

/-- **The entries that are returned are those that are gone.** -/
theorem WellFormed.size_removeAll (hashes : List UInt64) :
    (t.removeAll hashes).1.size + (t.removeAll hashes).2.length = t.size := by
  induction hashes generalizing t with
  | nil => rfl
  | cons hash hashes ih =>
    have hone := hw.size_remove_add hash
    have hrest := ih (hw.remove hash)
    simp only [SubTable.removeAll, List.length_append]
    omega

end

end SubTable

/-! ## Placements -/

/-- **What a placement adds to its table**: the candidate if it was admitted,
    less the peer that had to go. -/
theorem Placed.size_eq {t t' : SubTable} {candidate : Candidate} {p : Placement}
    (h : Placed t candidate p t') (hw : t.WellFormed) :
    t'.size + p.evicted?.toList.length = t.size + p.isAdmitted.toNat := by
  cases h with
  | disabled => rfl
  | stored => rfl
  | barred hbar => rcases hbar with rfl | rfl <;> rfl
  | offered policy i =>
    obtain ⟨ht, ha⟩ | ⟨e, data, position, rfl,
      ⟨haccepts, ht, ha⟩ | ⟨member, hmem, -, hnew, ht, ha⟩⟩ := t.offer_cases policy candidate i
    · rw [ht, ha]
      rfl
    · rw [ht, ha, SubTable.size_insert haccepts]
      rfl
    · have hstored : t.contains member.hash = true :=
        hw.contains_iff.2 ⟨member, SubTable.mem_entries.2 ⟨i, hmem⟩, rfl⟩
      have hremove := SubTable.size_remove hstored
      rw [ht, ha, SubTable.size_insert (hw.accepts_remove hmem hnew), hremove]
      rfl

end CubeRouting
