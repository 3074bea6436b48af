/-
  Grid and index of a table agree.

  `WellFormed` is what every operation on a table keeps: the index has the slot
  of each stored peer, no slot has more entries than it may, and each entry
  knows its slot.

  * `slot_remove`, `slot_insert`: the slots after entries left or joined;
  * `get?_eq_some_iff`, `contains_iff`: what the index answers;
  * `WellFormed.modify`, `WellFormed.modifyAll`, `WellFormed.remove`,
    `WellFormed.insert`: the operations.
-/
import CubeRouting.Table.SubTable
import Mathlib.Data.List.Nodup
import Mathlib.Tactic.Common

namespace CubeRouting

/-- What an entry keeps as long as it is in its slot. -/
structure Entry.Continues (e' e : Entry) : Prop where
  id : e'.node.id = e.node.id
  hash : e'.hash = e.hash
  distance : e'.distance = e.distance
  admittedAt : e'.admittedAt = e.admittedAt
  slot : e'.slot = e.slot
  discarded : e'.discarded = e.discarded

namespace Entry.Continues

theorem refl (e : Entry) : e.Continues e := ⟨rfl, rfl, rfl, rfl, rfl, rfl⟩

theorem trans {a b c : Entry} (h : a.Continues b) (h' : b.Continues c) : a.Continues c :=
  ⟨h.id.trans h'.id, h.hash.trans h'.hash, h.distance.trans h'.distance,
    h.admittedAt.trans h'.admittedAt, h.slot.trans h'.slot, h.discarded.trans h'.discarded⟩

end Entry.Continues

namespace SubTable

variable {t t' : SubTable} {e e' : Entry} {i j : SlotIndex} {hash : UInt64}

/-- The fixed data of a table: its kind, its extents and its capacity. -/
structure SameGrid (t' t : SubTable) : Prop where
  kind : t'.kind = t.kind
  levels : t'.levels = t.levels
  columns : t'.columns = t.columns
  capacity : t'.capacity = t.capacity

theorem SameGrid.refl (t : SubTable) : t.SameGrid t := ⟨rfl, rfl, rfl, rfl⟩

theorem SameGrid.trans {a b c : SubTable} (h : a.SameGrid b) (h' : b.SameGrid c) : a.SameGrid c :=
  ⟨h.kind.trans h'.kind, h.levels.trans h'.levels, h.columns.trans h'.columns,
    h.capacity.trans h'.capacity⟩

theorem SameGrid.symm (h : t'.SameGrid t) : t.SameGrid t' :=
  ⟨h.kind.symm, h.levels.symm, h.columns.symm, h.capacity.symm⟩

/-- A cell of the grid. -/
def InGrid (t : SubTable) (i : SlotIndex) : Prop := i.level < t.levels ∧ i.column < t.columns

/-- Grid and index of a table agree. -/
structure WellFormed (t : SubTable) : Prop where
  /-- The index has the slot of every stored peer, and nothing else. -/
  index_iff : ∀ (hash : UInt64) (i : SlotIndex),
    t.index[hash]? = some i ↔ ∃ e ∈ t.slot i, e.hash = hash
  /-- A slot has a peer once. -/
  nodup : ∀ i, ((t.slot i).map (·.hash)).Nodup
  /-- Slots without entries are not stored. -/
  stored : ∀ (i : SlotIndex) (members : List Entry), t.slots[i]? = some members → members ≠ []
  length_le : ∀ i, (t.slot i).length ≤ t.capacity
  inGrid : ∀ i, ∀ e ∈ t.slot i, t.InGrid i
  slot_eq : ∀ i, ∀ e ∈ t.slot i, e.slot = ⟨t.kind, i⟩
  live : ∀ i, ∀ e ∈ t.slot i, e.discarded = false

theorem wellFormed_empty (kind : TableKind) (levels columns capacity : Nat) :
    (empty kind levels columns capacity).WellFormed where
  index_iff h i := by
    rw [slot_empty, show (empty kind levels columns capacity).index = ∅ from rfl]
    simp
  nodup i := by rw [slot_empty]; exact List.nodup_nil
  stored i members hm := by
    rw [show (empty kind levels columns capacity).slots = ∅ from rfl] at hm
    simp at hm
  length_le i := by rw [slot_empty]; exact Nat.zero_le _
  inGrid i e he := by rw [slot_empty] at he; cases he
  slot_eq i e he := by rw [slot_empty] at he; cases he
  live i e he := by rw [slot_empty] at he; cases he

/-! ## Reading -/

theorem mem_entries : e ∈ t.entries ↔ ∃ i, e ∈ t.slot i := by
  simp only [entries, List.mem_flatMap, Prod.exists, Std.ExtTreeMap.mem_toList_iff_getElem?_eq_some]
  constructor
  · rintro ⟨i, members, hm, he⟩
    exact ⟨i, by rwa [slot, hm, Option.getD_some]⟩
  · rintro ⟨i, he⟩
    rw [slot] at he
    cases hm : t.slots[i]? with
    | none => rw [hm] at he; cases he
    | some members => rw [hm] at he; exact ⟨i, members, hm, he⟩

/-- A peer that the table does not have is not found. -/
theorem get?_eq_none (h : t.contains hash = false) : t.get? hash = none := by
  rw [contains, Std.ExtTreeMap.contains_eq_isSome_getElem?, Option.isSome_eq_false_iff,
    Option.isNone_iff_eq_none] at h
  rw [get?, h]
  rfl

/-- Entries with different hashes are found by their hashes. -/
theorem find?_hash_eq_some_iff {members : List Entry} (hn : (members.map (·.hash)).Nodup) :
    members.find? (·.hash == hash) = some e ↔ e ∈ members ∧ e.hash = hash := by
  constructor
  · intro hfind
    have hhash := List.find?_some hfind
    exact ⟨List.mem_of_find?_eq_some hfind, beq_iff_eq.1 hhash⟩
  · rintro ⟨he, rfl⟩
    cases hfind : members.find? (·.hash == e.hash) with
    | none => exact absurd (beq_self_eq_true e.hash) (List.find?_eq_none.1 hfind e he)
    | some e' =>
      have hhash : e'.hash = e.hash := by simpa using List.find?_some hfind
      rw [List.inj_on_of_nodup_map hn (List.mem_of_find?_eq_some hfind) he hhash]

section
variable (hw : t.WellFormed)
include hw

theorem WellFormed.index_eq (he : e ∈ t.slot i) : t.index[e.hash]? = some i :=
  (hw.index_iff e.hash i).2 ⟨e, he, rfl⟩

theorem WellFormed.slot_unique (he : e ∈ t.slot i) (he' : e' ∈ t.slot j) (h : e.hash = e'.hash) :
    i = j := by
  have := hw.index_eq he
  rw [h, hw.index_eq he'] at this
  exact (Option.some.inj this).symm

/-- A table has one entry of a peer. -/
theorem WellFormed.eq_of_hash (he : e ∈ t.slot i) (he' : e' ∈ t.slot j) (h : e.hash = e'.hash) :
    e = e' := by
  obtain rfl := hw.slot_unique he he' h
  exact List.inj_on_of_nodup_map (hw.nodup i) he he' h

theorem WellFormed.get?_eq_some_iff :
    t.get? hash = some e ↔ e ∈ t.entries ∧ e.hash = hash := by
  rw [mem_entries, get?, Option.bind_eq_bind, Option.bind_eq_some_iff]
  simp only [find?_hash_eq_some_iff (hw.nodup _)]
  constructor
  · rintro ⟨i, -, he, hh⟩
    exact ⟨⟨i, he⟩, hh⟩
  · rintro ⟨⟨i, he⟩, rfl⟩
    exact ⟨i, hw.index_eq he, he, rfl⟩

theorem WellFormed.contains_iff : t.contains hash = true ↔ ∃ e ∈ t.entries, e.hash = hash := by
  rw [contains, Std.ExtTreeMap.contains_eq_isSome_getElem?, Option.isSome_iff_exists]
  constructor
  · rintro ⟨i, hi⟩
    obtain ⟨e, he, rfl⟩ := (hw.index_iff hash i).1 hi
    exact ⟨e, mem_entries.2 ⟨i, he⟩, rfl⟩
  · rintro ⟨e, he, rfl⟩
    obtain ⟨i, he⟩ := mem_entries.1 he
    exact ⟨i, hw.index_eq he⟩

/-- The grid stores the slots with entries. -/
theorem WellFormed.slots_eq (i : SlotIndex) :
    t.slots[i]? = if t.slot i = [] then none else some (t.slot i) := by
  rw [slot]
  cases hm : t.slots[i]? with
  | none => rfl
  | some members => exact (if_neg (hw.stored i members hm)).symm

/-- **A table is its size and its slots.** -/
theorem WellFormed.eq_of_slots (hw' : t'.WellFormed) (hg : t'.SameGrid t)
    (h : ∀ i, t'.slot i = t.slot i) : t' = t := by
  have hslots : t'.slots = t.slots := by
    refine Std.ExtTreeMap.ext_getElem? fun i => ?_
    rw [hw'.slots_eq, hw.slots_eq, h]
  have hindex : t'.index = t.index := by
    refine Std.ExtTreeMap.ext_getElem? fun hash => Option.ext fun i => ?_
    rw [hw'.index_iff, hw.index_iff, h]
  cases t
  cases t'
  cases hslots
  cases hindex
  cases hg.kind
  cases hg.levels
  cases hg.columns
  cases hg.capacity
  rfl

end

/-! ## Changing entries -/

/-- Each entry of a table is replaced by one that continues it. -/
structure Edits (t' t : SubTable) : Prop where
  grid : t'.SameGrid t
  index : t'.index = t.index
  slots : ∃ g : SlotIndex → Entry → Entry,
    (∀ i, ∀ e ∈ t.slot i, (g i e).Continues e) ∧
      ∀ i, t'.slots[i]? = t.slots[i]?.map (List.map (g i))

theorem Edits.refl (t : SubTable) : t.Edits t :=
  ⟨SameGrid.refl t, rfl, fun _ => id, fun _ e _ => Entry.Continues.refl e, fun i => by simp⟩

theorem edits_modifyAll {f : Entry → Entry} (hf : ∀ e, (f e).Continues e) :
    (t.modifyAll f).Edits t where
  grid := ⟨rfl, rfl, rfl, rfl⟩
  index := rfl
  slots := ⟨fun _ => f, fun _ e _ => hf e, fun _ => Std.ExtTreeMap.getElem?_map⟩

theorem WellFormed.edits_modify (hw : t.WellFormed) {f : Entry → Entry}
    (hf : ∀ e, t.get? hash = some e → (f e).Continues e) : (t.modify hash f).Edits t := by
  unfold modify
  split
  · exact Edits.refl t
  · rename_i i hi
    refine ⟨⟨rfl, rfl, rfl, rfl⟩, rfl,
      fun j => if i = j then fun e => if e.hash = hash then f e else e else id, ?_, fun j => ?_⟩
    · intro j e he
      dsimp only
      by_cases hij : i = j
      · rw [if_pos hij]
        by_cases hh : e.hash = hash
        · rw [if_pos hh]
          exact hf e (hw.get?_eq_some_iff.2 ⟨mem_entries.2 ⟨j, he⟩, hh⟩)
        · rw [if_neg hh]
          exact Entry.Continues.refl e
      · rw [if_neg hij]
        exact Entry.Continues.refl e
    · simp only [Std.ExtTreeMap.getElem?_modify, Std.LawfulEqCmp.compare_eq_iff_eq]
      by_cases hij : i = j
      · rw [if_pos hij, if_pos hij, hij]
      · rw [if_neg hij, if_neg hij, List.map_id_fun, Option.map_id_fun, id]

theorem map_eq_self_of_forall {f : Entry → Entry} {members : List Entry}
    (h : ∀ e ∈ members, f e = e) : members.map f = members :=
  (List.map_congr_left h).trans (List.map_id' members)

/-- A slot after the entry of a hash was changed. -/
theorem WellFormed.slot_modify (hw : t.WellFormed) (hash : UInt64) (f : Entry → Entry)
    (i : SlotIndex) :
    (t.modify hash f).slot i = (t.slot i).map fun e => if e.hash = hash then f e else e := by
  -- a slot that the index does not name has no such entry
  have hself : t.index[hash]? ≠ some i →
      t.slot i = (t.slot i).map fun e => if e.hash = hash then f e else e := by
    intro hne
    refine (map_eq_self_of_forall fun e he => if_neg ?_).symm
    rintro rfl
    exact hne (hw.index_eq he)
  unfold modify
  split
  · rename_i hnone
    exact hself (by rw [hnone]; exact Option.some_ne_none i |>.symm)
  · rename_i j hj
    by_cases hij : j = i
    · subst hij
      simp only [slot, Std.ExtTreeMap.getElem?_modify, Std.LawfulEqCmp.compare_eq_iff_eq, if_true]
      cases t.slots[j]? <;> rfl
    · have hsame : (t.slots.modify j (·.map fun e => if e.hash = hash then f e else e))[i]? =
          t.slots[i]? := by
        rw [Std.ExtTreeMap.getElem?_modify, if_neg fun h => hij (Std.LawfulEqCmp.eq_of_compare h)]
      rw [slot, hsame]
      exact hself (by rw [hj]; exact fun h => hij (Option.some.inj h))

theorem slot_modifyAll (f : Entry → Entry) (i : SlotIndex) :
    (t.modifyAll f).slot i = (t.slot i).map f := by
  simp only [slot, modifyAll, Std.ExtTreeMap.getElem?_map]
  cases t.slots[i]? <;> rfl

theorem WellFormed.mem_modify (hw : t.WellFormed) {f : Entry → Entry} :
    e' ∈ (t.modify hash f).entries ↔
      ∃ e ∈ t.entries, (if e.hash = hash then f e else e) = e' := by
  simp only [mem_entries, hw.slot_modify, List.mem_map]
  exact ⟨fun ⟨i, e, he, h⟩ => ⟨e, ⟨i, he⟩, h⟩, fun ⟨e, ⟨i, he⟩, h⟩ => ⟨i, e, he, h⟩⟩

theorem mem_modifyAll {f : Entry → Entry} :
    e' ∈ (t.modifyAll f).entries ↔ ∃ e ∈ t.entries, f e = e' := by
  simp only [mem_entries, slot_modifyAll, List.mem_map]
  exact ⟨fun ⟨i, e, he, h⟩ => ⟨e, ⟨i, he⟩, h⟩, fun ⟨e, ⟨i, he⟩, h⟩ => ⟨i, e, he, h⟩⟩

section
variable (hed : t'.Edits t)
include hed

theorem Edits.exists_slot_eq : ∃ g : SlotIndex → Entry → Entry,
    (∀ i, ∀ e ∈ t.slot i, (g i e).Continues e) ∧ ∀ i, t'.slot i = (t.slot i).map (g i) := by
  obtain ⟨g, hg, hslots⟩ := hed.slots
  refine ⟨g, hg, fun i => ?_⟩
  rw [slot, slot, hslots]
  cases t.slots[i]? with
  | none => rfl
  | some members => rfl

theorem Edits.continues (he' : e' ∈ t'.slot i) : ∃ e ∈ t.slot i, e'.Continues e := by
  obtain ⟨g, hg, hslot⟩ := hed.exists_slot_eq
  rw [hslot] at he'
  obtain ⟨e, he, rfl⟩ := List.mem_map.1 he'
  exact ⟨e, he, hg i e he⟩

theorem Edits.continued (he : e ∈ t.slot i) : ∃ e' ∈ t'.slot i, e'.Continues e := by
  obtain ⟨g, hg, hslot⟩ := hed.exists_slot_eq
  exact ⟨g i e, by rw [hslot]; exact List.mem_map_of_mem he, hg i e he⟩

theorem Edits.entries_continue (he' : e' ∈ t'.entries) : ∃ e ∈ t.entries, e'.Continues e := by
  obtain ⟨i, hi⟩ := mem_entries.1 he'
  obtain ⟨e, he, hc⟩ := hed.continues hi
  exact ⟨e, mem_entries.2 ⟨i, he⟩, hc⟩

theorem Edits.entries_continued (he : e ∈ t.entries) : ∃ e' ∈ t'.entries, e'.Continues e := by
  obtain ⟨i, hi⟩ := mem_entries.1 he
  obtain ⟨e', he', hc⟩ := hed.continued hi
  exact ⟨e', mem_entries.2 ⟨i, he'⟩, hc⟩

theorem Edits.contains_eq : t'.contains hash = t.contains hash := by
  rw [contains, contains, hed.index]

theorem WellFormed.edits (hw : t.WellFormed) : t'.WellFormed where
  index_iff h i := by
    rw [hed.index, hw.index_iff]
    constructor
    · rintro ⟨e, he, rfl⟩
      obtain ⟨e', he', hc⟩ := hed.continued he
      exact ⟨e', he', hc.hash⟩
    · rintro ⟨e', he', rfl⟩
      obtain ⟨e, he, hc⟩ := hed.continues he'
      exact ⟨e, he, hc.hash.symm⟩
  nodup i := by
    obtain ⟨g, hg, hslot⟩ := hed.exists_slot_eq
    have hmap : (t'.slot i).map (·.hash) = (t.slot i).map (·.hash) := by
      rw [hslot, List.map_map]
      exact List.map_congr_left fun e he => (hg i e he).hash
    rw [hmap]
    exact hw.nodup i
  stored i members hm := by
    obtain ⟨g, -, hslots⟩ := hed.slots
    rw [hslots] at hm
    obtain ⟨old, hold, rfl⟩ := Option.map_eq_some_iff.1 hm
    exact fun hnil => hw.stored i old hold (List.map_eq_nil_iff.1 hnil)
  length_le i := by
    obtain ⟨g, -, hslot⟩ := hed.exists_slot_eq
    rw [hslot, List.length_map, hed.grid.capacity]
    exact hw.length_le i
  inGrid i e' he' := by
    obtain ⟨e, he, -⟩ := hed.continues he'
    rw [InGrid, hed.grid.levels, hed.grid.columns]
    exact hw.inGrid i e he
  slot_eq i e' he' := by
    obtain ⟨e, he, hc⟩ := hed.continues he'
    rw [hc.slot, hed.grid.kind]
    exact hw.slot_eq i e he
  live i e' he' := by
    obtain ⟨e, he, hc⟩ := hed.continues he'
    rw [hc.discarded]
    exact hw.live i e he

end

/-! ## Removing entries -/

theorem sameGrid_remove (t : SubTable) (hash : UInt64) : (t.remove hash).1.SameGrid t := by
  unfold remove
  split <;> exact ⟨rfl, rfl, rfl, rfl⟩

theorem stored_setSlot {members : List Entry}
    (hs : ∀ (i : SlotIndex) (members : List Entry), t.slots[i]? = some members → members ≠ [])
    (j : SlotIndex) {members' : List Entry} (hm : (t.setSlot i members).slots[j]? = some members') :
    members' ≠ [] := by
  simp only [setSlot] at hm
  split at hm
  · rw [Std.ExtTreeMap.getElem?_erase] at hm
    split at hm
    · cases hm
    · exact hs j members' hm
  · rename_i hne
    rw [Std.ExtTreeMap.getElem?_insert] at hm
    split at hm
    · cases hm
      exact fun hnil => hne (by rw [hnil]; rfl)
    · exact hs j members' hm

theorem index_remove (t : SubTable) (hash other : UInt64) :
    (t.remove hash).1.index[other]? = if hash = other then none else t.index[other]? := by
  unfold remove
  split
  · rename_i hnone
    by_cases hh : hash = other
    · rw [if_pos hh, ← hh, hnone]
    · rw [if_neg hh]
  · simp only [Std.ExtTreeMap.getElem?_erase, Std.LawfulEqCmp.compare_eq_iff_eq]

theorem contains_remove (t : SubTable) (hash other : UInt64) :
    (t.remove hash).1.contains other = (hash != other && t.contains other) := by
  rw [contains, contains, Std.ExtTreeMap.contains_eq_isSome_getElem?, index_remove]
  by_cases hh : hash = other
  · rw [if_pos hh, hh, bne_self_eq_false, Bool.false_and, Option.isSome_none]
  · rw [if_neg hh, bne_iff_ne.2 hh, Bool.true_and, Std.ExtTreeMap.contains_eq_isSome_getElem?]

theorem eraseP_hash_eq_filter {members : List Entry} (hn : (members.map (·.hash)).Nodup) :
    members.eraseP (·.hash == hash) = members.filter (·.hash != hash) := by
  induction members with
  | nil => rfl
  | cons e members ih =>
    obtain ⟨hnew, hn⟩ := List.nodup_cons.1 hn
    by_cases hh : e.hash = hash
    · rw [List.eraseP_cons_of_pos (by simpa using hh), List.filter_cons_of_neg (by simpa using hh),
        List.filter_eq_self.2]
      intro e' he'
      simp only [bne_iff_ne]
      rintro rfl
      exact hnew (List.mem_map.2 ⟨e', he', hh.symm⟩)
    · rw [List.eraseP_cons_of_neg (by simpa using hh), List.filter_cons_of_pos (by simpa using hh),
        ih hn]

theorem filter_hash_eq_eraseIdx {members : List Entry} {w : Entry} {v : Nat}
    (hn : (members.map (·.hash)).Nodup) (hv : members[v]? = some w) :
    members.filter (·.hash != w.hash) = members.eraseIdx v := by
  induction members generalizing v with
  | nil => cases hv
  | cons a members ih =>
    obtain ⟨hnew, hn⟩ := List.nodup_cons.1 hn
    cases v with
    | zero =>
      cases hv
      rw [List.filter_cons_of_neg (by simp), List.eraseIdx_cons_zero, List.filter_eq_self]
      intro e he
      rw [bne_iff_ne]
      exact fun hh => hnew (List.mem_map.2 ⟨e, he, hh⟩)
    | succ v =>
      rw [List.getElem?_cons_succ] at hv
      have hne : a.hash ≠ w.hash := fun hh =>
        hnew (List.mem_map.2 ⟨w, List.mem_of_getElem? hv, hh.symm⟩)
      rw [List.filter_cons_of_pos (by simpa using hne), List.eraseIdx_cons_succ, ih hn hv]

/-- **A peer that is removed leaves its slot**; everything else stays. -/
theorem WellFormed.slot_remove (hw : t.WellFormed) (hash : UInt64) (i : SlotIndex) :
    (t.remove hash).1.slot i = (t.slot i).filter (·.hash != hash) := by
  -- slots without the peer are not touched
  have hself : t.index[hash]? ≠ some i → t.slot i = (t.slot i).filter (·.hash != hash) := by
    intro hne
    refine (List.filter_eq_self.2 fun e he => ?_).symm
    simp only [bne_iff_ne]
    rintro rfl
    exact hne (hw.index_eq he)
  unfold remove
  split
  · rename_i hnone
    exact hself (by rw [hnone]; exact Option.some_ne_none i |>.symm)
  · rename_i j hj
    change (t.setSlot j _).slot i = _
    rw [slot_setSlot]
    split
    · rename_i hij
      rw [hij, eraseP_hash_eq_filter (hw.nodup i)]
    · rename_i hij
      exact hself (by rw [hj]; exact fun h => hij (Option.some.inj h))

/-- A slot without the member at a position. -/
theorem WellFormed.slot_remove_eq_eraseIdx (hw : t.WellFormed) {v : Nat}
    (hv : (t.slot i)[v]? = some e) : (t.remove e.hash).1.slot i = (t.slot i).eraseIdx v := by
  rw [hw.slot_remove, filter_hash_eq_eraseIdx (hw.nodup i) hv]

theorem WellFormed.mem_slot_remove (hw : t.WellFormed) :
    e ∈ (t.remove hash).1.slot i ↔ e ∈ t.slot i ∧ e.hash ≠ hash := by
  rw [hw.slot_remove, List.mem_filter, bne_iff_ne]

theorem WellFormed.mem_remove (hw : t.WellFormed) :
    e ∈ (t.remove hash).1.entries ↔ e ∈ t.entries ∧ e.hash ≠ hash := by
  simp only [mem_entries, hw.mem_slot_remove, exists_and_right]

theorem WellFormed.remove (hw : t.WellFormed) (hash : UInt64) : (t.remove hash).1.WellFormed where
  index_iff h i := by
    rw [index_remove]
    simp only [hw.mem_slot_remove, Option.ite_none_left_eq_some, hw.index_iff]
    constructor
    · rintro ⟨hne, e, he, rfl⟩
      exact ⟨e, ⟨he, fun h => hne h.symm⟩, rfl⟩
    · rintro ⟨e, ⟨he, hne⟩, rfl⟩
      exact ⟨fun h => hne h.symm, e, he, rfl⟩
  nodup i := by
    rw [hw.slot_remove]
    exact ((List.filter_sublist).map _).nodup (hw.nodup i)
  stored i members hm := by
    revert hm
    unfold SubTable.remove
    split
    · exact hw.stored i members
    · exact stored_setSlot hw.stored i
  length_le i := by
    rw [hw.slot_remove, (t.sameGrid_remove hash).capacity]
    exact Nat.le_trans (List.length_filter_le ..) (hw.length_le i)
  inGrid i e he := by
    rw [InGrid, (t.sameGrid_remove hash).levels, (t.sameGrid_remove hash).columns]
    exact hw.inGrid i e (hw.mem_slot_remove.1 he).1
  slot_eq i e he := by
    rw [(t.sameGrid_remove hash).kind]
    exact hw.slot_eq i e (hw.mem_slot_remove.1 he).1
  live i e he := hw.live i e (hw.mem_slot_remove.1 he).1

theorem WellFormed.mem_removeAll_iff (hw : t.WellFormed) {hashes : List UInt64} :
    e ∈ (t.removeAll hashes).1.entries ↔ e ∈ t.entries ∧ e.hash ∉ hashes := by
  induction hashes generalizing t with
  | nil => simp [removeAll]
  | cons hash hashes ih =>
    change e ∈ ((t.remove hash).1.removeAll hashes).1.entries ↔ _
    rw [ih (hw.remove hash), hw.mem_remove, List.mem_cons, not_or, and_assoc]

theorem WellFormed.mem_removeAll (hw : t.WellFormed) {hashes : List UInt64}
    (he : e ∈ (t.removeAll hashes).1.entries) : e ∈ t.entries := (hw.mem_removeAll_iff.1 he).1

/-- An entry has the hash of one that satisfies a condition if it satisfies the
    condition itself. -/
theorem WellFormed.hash_mem_iff (hw : t.WellFormed) {p : Entry → Bool} (he : e ∈ t.entries) :
    e.hash ∈ (t.entries.filter p).map (·.hash) ↔ p e = true := by
  rw [List.mem_map]
  constructor
  · rintro ⟨e', he', hh⟩
    obtain ⟨hmem, hp⟩ := List.mem_filter.1 he'
    obtain ⟨i, hi⟩ := mem_entries.1 hmem
    obtain ⟨j, hj⟩ := mem_entries.1 he
    rwa [← hw.eq_of_hash hi hj hh]
  · exact fun hp => ⟨e, List.mem_filter.2 ⟨he, hp⟩, rfl⟩

/-- **What a sweep leaves** are the entries that do not satisfy the condition. -/
theorem WellFormed.mem_removeWhere (hw : t.WellFormed) {p : Entry → Bool} :
    e ∈ (t.removeWhere p).1.entries ↔ e ∈ t.entries ∧ p e = false := by
  rw [removeWhere, hw.mem_removeAll_iff]
  refine and_congr_right fun he => ?_
  rw [hw.hash_mem_iff he, Bool.not_eq_true]

/-! ## Adding entries -/

theorem sameGrid_insert (t : SubTable) (position : Nat) (e : Entry) :
    (t.insert position e).SameGrid t := by
  unfold insert
  split <;> exact ⟨rfl, rfl, rfl, rfl⟩

theorem accepts_iff :
    t.accepts e = true ↔ (t.slot e.slot.index).length < t.capacity ∧ t.contains e.hash = false := by
  simp only [accepts, Bool.and_eq_true, decide_eq_true_eq, Bool.not_eq_true']

section
variable {position : Nat} (ha : t.accepts e = true)
include ha

theorem slot_insert (position : Nat) (i : SlotIndex) :
    (t.insert position e).slot i = if e.slot.index = i then
      (t.slot i).insertIdx (min position (t.slot i).length) e else t.slot i := by
  rw [insert, if_pos ha]
  change (t.setSlot _ _).slot i = _
  rw [slot_setSlot]
  split
  · rename_i hi
    rw [hi]
  · rfl

theorem index_insert (position : Nat) (hash : UInt64) :
    (t.insert position e).index[hash]? =
      if e.hash = hash then some e.slot.index else t.index[hash]? := by
  rw [insert, if_pos ha]
  simp only [Std.ExtTreeMap.getElem?_insert, Std.LawfulEqCmp.compare_eq_iff_eq]

theorem contains_insert (position : Nat) (hash : UInt64) :
    (t.insert position e).contains hash = (e.hash == hash || t.contains hash) := by
  rw [contains, contains, Std.ExtTreeMap.contains_eq_isSome_getElem?, index_insert ha]
  by_cases hh : e.hash = hash
  · rw [if_pos hh, beq_iff_eq.2 hh, Bool.true_or, Option.isSome_some]
  · rw [if_neg hh, beq_false_of_ne hh, Bool.false_or, Std.ExtTreeMap.contains_eq_isSome_getElem?]

theorem mem_slot_insert :
    e' ∈ (t.insert position e).slot i ↔ (e' = e ∧ e.slot.index = i) ∨ e' ∈ t.slot i := by
  rw [slot_insert ha]
  split
  · rename_i hi
    rw [List.mem_insertIdx (Nat.min_le_right _ _)]
    exact or_congr_left ⟨fun h => ⟨h, hi⟩, fun h => h.1⟩
  · rename_i hi
    exact ⟨Or.inr, fun h => h.resolve_left fun h => hi h.2⟩

end

theorem mem_entries_insert {position : Nat} (h : e' ∈ (t.insert position e).entries) :
    e' = e ∨ e' ∈ t.entries := by
  by_cases ha : t.accepts e = true
  · obtain ⟨i, hi⟩ := mem_entries.1 h
    rcases (mem_slot_insert ha).1 hi with ⟨he, -⟩ | hi
    · exact Or.inl he
    · exact Or.inr (mem_entries.2 ⟨i, hi⟩)
  · rw [SubTable.insert, if_neg ha] at h
    exact Or.inr h

section
variable (hw : t.WellFormed) (ha : t.accepts e = true)
include hw ha

/-- An entry is accepted if its peer is not stored. -/
theorem WellFormed.hash_ne_of_accepts (he' : e' ∈ t.slot i) : e'.hash ≠ e.hash := by
  intro hh
  have hc : t.contains e.hash = true := hw.contains_iff.2 ⟨e', mem_entries.2 ⟨i, he'⟩, hh⟩
  rw [(accepts_iff.1 ha).2] at hc
  cases hc

theorem WellFormed.index_insert_iff (position : Nat) :
    (t.insert position e).index[hash]? = some i ↔
      ∃ e' ∈ (t.insert position e).slot i, e'.hash = hash := by
  rw [index_insert ha]
  simp only [mem_slot_insert ha]
  split
  · rename_i hh
    subst hh
    constructor
    · intro hi
      exact ⟨e, Or.inl ⟨rfl, Option.some.inj hi⟩, rfl⟩
    · rintro ⟨e', ⟨rfl, hi⟩ | he', hh⟩
      · rw [hi]
      · exact absurd hh (hw.hash_ne_of_accepts ha he')
  · rename_i hh
    rw [hw.index_iff]
    constructor
    · rintro ⟨e', he', hh'⟩
      exact ⟨e', Or.inr he', hh'⟩
    · rintro ⟨e', ⟨rfl, -⟩ | he', hh'⟩
      · exact absurd hh' hh
      · exact ⟨e', he', hh'⟩

theorem WellFormed.nodup_insert (position : Nat) (i : SlotIndex) :
    (((t.insert position e).slot i).map (·.hash)).Nodup := by
  rw [slot_insert ha]
  split
  · have hperm := (List.perm_insertIdx e (t.slot i) (Nat.min_le_right position _)).map (·.hash)
    rw [hperm.nodup_iff, List.map_cons, List.nodup_cons]
    refine ⟨fun hm => ?_, hw.nodup i⟩
    obtain ⟨e', he', hh⟩ := List.mem_map.1 hm
    exact hw.hash_ne_of_accepts ha he' hh
  · exact hw.nodup i

end

theorem WellFormed.insert (hw : t.WellFormed) (position : Nat)
    (hslot : e.slot = ⟨t.kind, e.slot.index⟩) (hgrid : t.InGrid e.slot.index)
    (hlive : e.discarded = false) : (t.insert position e).WellFormed := by
  by_cases ha : t.accepts e = true
  swap
  · rwa [SubTable.insert, if_neg ha]
  have hg := t.sameGrid_insert position e
  constructor
  case index_iff => exact fun h i => hw.index_insert_iff ha position
  case nodup => exact hw.nodup_insert ha position
  case stored =>
    intro i members hm
    rw [SubTable.insert, if_pos ha] at hm
    exact stored_setSlot hw.stored i hm
  case length_le =>
    intro i
    rw [slot_insert ha, hg.capacity]
    split
    · rename_i hi
      rw [List.length_insertIdx_of_le_length (Nat.min_le_right _ _), ← hi]
      exact (accepts_iff.1 ha).1
    · exact hw.length_le i
  case inGrid =>
    intro i e' he'
    rw [InGrid, hg.levels, hg.columns]
    rcases (mem_slot_insert ha).1 he' with ⟨-, rfl⟩ | he'
    · exact hgrid
    · exact hw.inGrid i e' he'
  case slot_eq =>
    intro i e' he'
    rw [hg.kind]
    rcases (mem_slot_insert ha).1 he' with ⟨rfl, rfl⟩ | he'
    · exact hslot
    · exact hw.slot_eq i e' he'
  case live =>
    intro i e' he'
    rcases (mem_slot_insert ha).1 he' with ⟨rfl, -⟩ | he'
    · exact hlive
    · exact hw.live i e' he'

end SubTable

end CubeRouting
