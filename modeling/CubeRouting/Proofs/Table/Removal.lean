/-
  What a removal takes out of a table.

  `TakesOut` says that exactly the entries of a condition are gone and were
  handed out, in their order, and that all others are as they were.

  * `WellFormed.takesOut_remove`: the entry of a peer;
  * `WellFormed.takesOut_removeWhere`: the entries that satisfy a condition.
    They are removed by hash, one after another, and no removal changes what
    the index answers for the others;
  * `TakesOut.again`: a second time nothing is left to take out.
-/
import CubeRouting.Proofs.Table.Scan

namespace CubeRouting

namespace SubTable

variable {t t' : SubTable} {e : Entry} {i : SlotIndex} {hash : UInt64} {hashes : List UInt64}
  {p : Entry → Bool} {removed : List Entry}

/-- `t'` is `t` without the entries that satisfy `p`, and `removed` are these
    entries as they are handed out. -/
structure TakesOut (t : SubTable) (p : Entry → Bool) (t' : SubTable) (removed : List Entry) :
    Prop where
  wellFormed : t'.WellFormed
  grid : t'.SameGrid t
  /-- The entries are handed out in the order of the table. -/
  removed_eq : removed = (t.entries.filter p).map Entry.discard
  /-- What stays in a slot keeps its order. -/
  slot_eq : ∀ i, t'.slot i = (t.slot i).filter fun e => !p e

/-! ## One peer -/

/-- A removal hands out the entry that the index has. -/
theorem snd_remove (t : SubTable) (hash : UInt64) :
    (t.remove hash).2 = (t.get? hash).map Entry.discard := by
  unfold remove get?
  cases t.index[hash]? <;> rfl

theorem sameGrid_removeAll (t : SubTable) (hashes : List UInt64) :
    (t.removeAll hashes).1.SameGrid t := by
  induction hashes generalizing t with
  | nil => exact SameGrid.refl t
  | cons hash hashes ih => exact (ih (t.remove hash).1).trans (t.sameGrid_remove hash)

section
variable (hw : t.WellFormed)
include hw

/-- No removal changes what the index answers for other peers. -/
theorem WellFormed.get?_remove_of_ne {other : UInt64} (hne : other ≠ hash) :
    (t.remove hash).1.get? other = t.get? other := by
  refine Option.ext fun e => ?_
  rw [(hw.remove hash).get?_eq_some_iff, hw.get?_eq_some_iff, hw.mem_remove]
  constructor
  · rintro ⟨⟨he, -⟩, hh⟩
    exact ⟨he, hh⟩
  · rintro ⟨he, rfl⟩
    exact ⟨⟨he, hne⟩, rfl⟩

/-- The entries of a hash are the one that the index has. -/
theorem WellFormed.filter_hash (hash : UInt64) :
    t.entries.filter (·.hash == hash) = (t.get? hash).toList := by
  have hle : (t.scan.filter (·.hash == hash)).length ≤ 1 := by
    have hcount := List.nodup_iff_count_le_one.1 hw.nodup_scan hash
    rwa [List.count_eq_countP, List.countP_map, List.countP_eq_length_filter] at hcount
  rw [hw.get?_eq_scan, hw.entries_eq_scan, ← List.head?_filter]
  cases hfound : t.scan.filter (·.hash == hash) with
  | nil => rfl
  | cons e rest =>
    rw [hfound, List.length_cons] at hle
    obtain rfl : rest = [] := List.length_eq_zero_iff.1 (by omega)
    rfl

/-- **A peer that is removed is taken out**, and nothing else. -/
theorem WellFormed.takesOut_remove (hash : UInt64) :
    t.TakesOut (·.hash == hash) (t.remove hash).1 (t.remove hash).2.toList where
  wellFormed := hw.remove hash
  grid := t.sameGrid_remove hash
  removed_eq := by
    rw [snd_remove, hw.filter_hash]
    cases t.get? hash <;> rfl
  slot_eq i := hw.slot_remove hash i

/-! ## Several peers -/

theorem WellFormed.removeAll (hashes : List UInt64) : (t.removeAll hashes).1.WellFormed := by
  induction hashes generalizing t with
  | nil => exact hw
  | cons hash hashes ih => exact ih (hw.remove hash)

theorem WellFormed.slot_removeAll (hashes : List UInt64) (i : SlotIndex) :
    (t.removeAll hashes).1.slot i = (t.slot i).filter fun e => e.hash ∉ hashes := by
  induction hashes generalizing t with
  | nil => simp [SubTable.removeAll]
  | cons hash hashes ih =>
    change ((t.remove hash).1.removeAll hashes).1.slot i = _
    rw [ih (hw.remove hash), hw.slot_remove, List.filter_filter]
    refine List.filter_congr fun e _ => ?_
    by_cases hh : e.hash = hash <;> simp [hh]

/-- Removing different peers one after another hands out the entries that the
    index had for them at the start. -/
theorem WellFormed.snd_removeAll (hn : hashes.Nodup) :
    (t.removeAll hashes).2 = (hashes.filterMap t.get?).map Entry.discard := by
  induction hashes generalizing t with
  | nil => rfl
  | cons hash hashes ih =>
    obtain ⟨hnew, hn⟩ := List.nodup_cons.1 hn
    have hsame : hashes.filterMap (t.remove hash).1.get? = hashes.filterMap t.get? :=
      List.filterMap_congr fun other hother =>
        hw.get?_remove_of_ne (ne_of_mem_of_not_mem hother hnew)
    change (t.remove hash).2.toList ++ ((t.remove hash).1.removeAll hashes).2 = _
    rw [ih (hw.remove hash) hn, hsame, snd_remove]
    cases hget : t.get? hash with
    | none => rw [List.filterMap_cons_none hget]; rfl
    | some e => rw [List.filterMap_cons_some hget]; rfl

/-- Looking up the hashes of some entries gives these entries. -/
theorem WellFormed.filterMap_get? {members : List Entry} (hm : ∀ e ∈ members, e ∈ t.entries) :
    (members.map (·.hash)).filterMap t.get? = members := by
  rw [List.filterMap_map]
  refine (List.filterMap_congr fun e he => ?_).trans List.filterMap_some
  exact hw.get?_eq_some_iff.2 ⟨hm e he, rfl⟩

/-- **The entries that satisfy a condition are taken out**, and nothing else. -/
theorem WellFormed.takesOut_removeWhere (p : Entry → Bool) :
    t.TakesOut p (t.removeWhere p).1 (t.removeWhere p).2 where
  wellFormed := hw.removeAll _
  grid := t.sameGrid_removeAll _
  removed_eq := by
    have hn : ((t.entries.filter p).map (·.hash)).Nodup := by
      refine List.Nodup.sublist ((List.filter_sublist).map _) ?_
      rw [hw.entries_eq_scan]
      exact hw.nodup_scan
    rw [removeWhere, hw.snd_removeAll hn, hw.filterMap_get? fun e he => (List.mem_filter.1 he).1]
  slot_eq i := by
    rw [removeWhere, hw.slot_removeAll]
    refine List.filter_congr fun e he => ?_
    simp [hw.hash_mem_iff (mem_entries.2 ⟨i, he⟩)]

end

/-! ## What is left -/

section
variable (h : t.TakesOut p t' removed)
include h

/-- No entry that satisfies the condition is left. -/
theorem TakesOut.eq_false (he : e ∈ t'.entries) : p e = false := by
  obtain ⟨i, hi⟩ := mem_entries.1 he
  rw [h.slot_eq] at hi
  simpa using (List.mem_filter.1 hi).2

/-- **A second time nothing is taken out.** -/
theorem TakesOut.again {t'' : SubTable} {removed' : List Entry}
    (h' : t'.TakesOut p t'' removed') : t'' = t' ∧ removed' = [] := by
  refine ⟨h.wellFormed.eq_of_slots h'.wellFormed h'.grid fun i => ?_, ?_⟩
  · rw [h'.slot_eq]
    refine List.filter_eq_self.2 fun e he => ?_
    rw [h.eq_false (mem_entries.2 ⟨i, he⟩)]
    rfl
  · have hnone : t'.entries.filter p = [] :=
      List.filter_eq_nil_iff.2 fun e he => by rw [h.eq_false he]; exact Bool.false_ne_true
    rw [h'.removed_eq, hnone, List.map_nil]

end

end SubTable

end CubeRouting
