/-
  Reading a table and looking through its grid.

  `scan` goes through all cells of a table, level by level.  In a well-formed
  table it finds the same entries, in the same order, as reading does, and the
  index answers as a search through them would.
-/
import CubeRouting.Proofs.Table.WellFormed
import Mathlib.Data.List.Nodup

namespace CubeRouting

namespace SubTable

variable {t : SubTable} {e : Entry} {i j : SlotIndex} {hash : UInt64}

/-- All cells of the grid, level by level. -/
def cells (t : SubTable) : List SlotIndex :=
  (List.range t.levels).flatMap fun level => (List.range t.columns).map fun column => ⟨level, column⟩

/-- The entries of all cells. -/
def scan (t : SubTable) : List Entry := t.cells.flatMap t.slot

/-! ## The cells in order -/

theorem mem_cells : i ∈ t.cells ↔ t.InGrid i := by
  simp only [cells, List.mem_flatMap, List.mem_map, List.mem_range, InGrid]
  constructor
  · rintro ⟨level, hl, column, hc, rfl⟩
    exact ⟨hl, hc⟩
  · rintro ⟨hl, hc⟩
    exact ⟨i.level, hl, i.column, hc, rfl⟩

theorem slotIndex_lt_iff : compare i j = .lt ↔
    i.level < j.level ∨ i.level = j.level ∧ i.column < j.column := by
  have hcompare : compare i j =
      (compare i.level j.level).then (compare i.column j.column) := rfl
  rw [hcompare, Ordering.then_eq_lt]
  simp only [Nat.compare_eq_lt, Nat.compare_eq_eq]

theorem slotIndex_lt_irrefl (i : SlotIndex) : compare i i ≠ .lt := by
  rw [ne_eq, slotIndex_lt_iff]
  omega

theorem cells_sorted (t : SubTable) : t.cells.Pairwise fun i j => compare i j = .lt := by
  rw [cells, List.pairwise_flatMap]
  refine ⟨fun level _ => ?_, ?_⟩
  · rw [List.pairwise_map]
    refine List.pairwise_lt_range.imp fun hc => ?_
    exact slotIndex_lt_iff.2 (Or.inr ⟨rfl, hc⟩)
  · refine List.pairwise_lt_range.imp fun hl i hi j hj => ?_
    obtain ⟨c, -, rfl⟩ := List.mem_map.1 hi
    obtain ⟨c', -, rfl⟩ := List.mem_map.1 hj
    exact slotIndex_lt_iff.2 (Or.inl hl)

/-- Lists of slots in order that have the same members are equal. -/
theorem sorted_ext {l₁ l₂ : List SlotIndex} (h₁ : l₁.Pairwise fun i j => compare i j = .lt)
    (h₂ : l₂.Pairwise fun i j => compare i j = .lt) (h : ∀ i, i ∈ l₁ ↔ i ∈ l₂) : l₁ = l₂ := by
  have hn : ∀ {l : List SlotIndex}, (l.Pairwise fun i j => compare i j = .lt) → l.Nodup := by
    intro l hl
    refine hl.imp fun {i j} hlt => ?_
    rintro rfl
    exact slotIndex_lt_irrefl i hlt
  refine List.Perm.eq_of_pairwise (fun i j _ _ hij hji => ?_) h₁ h₂
    ((List.perm_ext_iff_of_nodup (hn h₁) (hn h₂)).2 h)
  rw [slotIndex_lt_iff] at hij hji
  omega

/-! ## Reading and looking through the cells -/

theorem flatMap_slot_filter (t : SubTable) (l : List SlotIndex) :
    (l.filter fun i => !(t.slot i).isEmpty).flatMap t.slot = l.flatMap t.slot := by
  induction l with
  | nil => rfl
  | cons i l ih =>
    by_cases hi : t.slot i = []
    · rw [List.filter_cons_of_neg (by simp [hi]), ih, List.flatMap_cons, hi, List.nil_append]
    · rw [List.filter_cons_of_pos (by simpa using hi), List.flatMap_cons, List.flatMap_cons, ih]

section
variable (hw : t.WellFormed)
include hw

theorem WellFormed.mem_slots : i ∈ t.slots ↔ t.slot i ≠ [] := by
  rw [Std.ExtTreeMap.mem_iff_isSome_getElem?, slot]
  cases hm : t.slots[i]? with
  | none => exact iff_of_false (by simp) (by simp)
  | some members => exact iff_of_true rfl (hw.stored i members hm)

/-- The stored slots are the cells with entries. -/
theorem WellFormed.keys_slots : t.slots.keys = t.cells.filter fun i => !(t.slot i).isEmpty := by
  refine sorted_ext Std.ExtTreeMap.ordered_keys (t.cells_sorted.filter _) fun i => ?_
  rw [Std.ExtTreeMap.mem_keys, hw.mem_slots, List.mem_filter, mem_cells]
  constructor
  · intro hne
    obtain ⟨e, he⟩ := List.exists_mem_of_ne_nil _ hne
    exact ⟨hw.inGrid i e he, by simpa using hne⟩
  · rintro ⟨-, hne⟩
    simpa using hne

/-- **The entries are those of the cells**, in the order of the cells. -/
theorem WellFormed.entries_eq_scan : t.entries = t.scan := by
  have hread : t.entries = t.slots.keys.flatMap t.slot := by
    rw [entries, ← Std.ExtTreeMap.map_fst_toList_eq_keys, List.flatMap_map]
    refine List.flatMap_congr fun p hm => ?_
    obtain ⟨i, members⟩ := p
    rw [Std.ExtTreeMap.mem_toList_iff_getElem?_eq_some] at hm
    rw [slot, hm, Option.getD_some]
  rw [hread, hw.keys_slots, flatMap_slot_filter, scan]

/-- **No peer has two entries.** -/
theorem WellFormed.nodup_scan : (t.scan.map (·.hash)).Nodup := by
  rw [scan, List.map_flatMap, List.nodup_flatMap]
  refine ⟨fun i _ => hw.nodup i, t.cells_sorted.imp fun {i j} hij h hi hj => ?_⟩
  obtain ⟨e, he, rfl⟩ := List.mem_map.1 hi
  obtain ⟨e', he', hh⟩ := List.mem_map.1 hj
  rw [hw.slot_unique he' he hh] at hij
  exact slotIndex_lt_irrefl i hij

theorem WellFormed.index_iff_countP :
    t.index[hash]? = some i ↔ (t.slot i).countP (·.hash == hash) = 1 := by
  have hcount : (t.slot i).countP (·.hash == hash) = ((t.slot i).map (·.hash)).count hash := by
    rw [List.count_eq_countP, List.countP_map]
    rfl
  rw [hcount, (hw.nodup i).count, hw.index_iff]
  simp only [List.mem_map, ite_eq_left_iff, Nat.zero_ne_one, imp_false, not_not]

theorem WellFormed.contains_eq_scan : t.contains hash = t.scan.any (·.hash == hash) := by
  rw [Bool.eq_iff_iff, hw.contains_iff, hw.entries_eq_scan, List.any_eq_true]
  simp only [beq_iff_eq]

theorem WellFormed.get?_eq_scan : t.get? hash = t.scan.find? (·.hash == hash) := by
  refine Option.ext fun e => ?_
  rw [hw.get?_eq_some_iff, hw.entries_eq_scan, find?_hash_eq_some_iff hw.nodup_scan]

theorem WellFormed.size_eq_scan : t.size = t.scan.length := by
  have hperm : t.index.keys.Perm (t.scan.map (·.hash)) := by
    refine (List.perm_ext_iff_of_nodup Std.ExtTreeMap.nodup_keys hw.nodup_scan).2 fun hash => ?_
    rw [Std.ExtTreeMap.mem_keys, ← Std.ExtTreeMap.contains_iff_mem]
    simp only [← hw.entries_eq_scan, List.mem_map]
    exact hw.contains_iff
  rw [size, ← Std.ExtTreeMap.length_keys, hperm.length_eq, List.length_map]

/-- The entries that satisfy a condition are those of a slot if the condition
    tells that slot from all others. -/
theorem WellFormed.filter_entries {p : Entry → Bool} (hp : ∀ i, ∀ e ∈ t.slot i, (p e = true ↔ i = j)) :
    t.entries.filter p = t.slot j := by
  have hself : (t.slot j).filter p = t.slot j :=
    List.filter_eq_self.2 fun e he => (hp j e he).2 rfl
  have hother : ∀ i, i ≠ j → (t.slot i).filter p = [] := fun i hi =>
    List.filter_eq_nil_iff.2 fun e he hpe => hi ((hp i e he).1 hpe)
  rw [hw.entries_eq_scan, scan, List.filter_flatMap]
  by_cases hj : j ∈ t.cells
  · obtain ⟨l₁, l₂, hcells⟩ := List.append_of_mem hj
    have hsorted := t.cells_sorted
    rw [hcells, List.pairwise_append, List.pairwise_cons] at hsorted
    obtain ⟨-, ⟨hafter, -⟩, hbefore⟩ := hsorted
    have h₁ : l₁.flatMap (fun i => (t.slot i).filter p) = [] := by
      refine List.flatMap_eq_nil_iff.2 fun i hi => hother i ?_
      rintro rfl
      exact slotIndex_lt_irrefl i (hbefore i hi i List.mem_cons_self)
    have h₂ : l₂.flatMap (fun i => (t.slot i).filter p) = [] := by
      refine List.flatMap_eq_nil_iff.2 fun i hi => hother i ?_
      rintro rfl
      exact slotIndex_lt_irrefl i (hafter i hi)
    rw [hcells, List.flatMap_append, List.flatMap_cons, h₁, h₂, hself, List.nil_append,
      List.append_nil]
  · have hempty : t.slot j = [] := by
      rw [List.eq_nil_iff_forall_not_mem]
      exact fun e he => hj (mem_cells.2 (hw.inGrid j e he))
    rw [hempty]
    refine List.flatMap_eq_nil_iff.2 fun i hi => hother i ?_
    rintro rfl
    exact hj hi

theorem WellFormed.occupiedSlots_eq_scan :
    t.occupiedSlots = (t.cells.filter fun i => !(t.slot i).isEmpty).length := by
  rw [occupiedSlots, ← Std.ExtTreeMap.length_keys, hw.keys_slots]

end

/-- Grid, index and entries of a table are in step, and reading it is looking
    through its grid. -/
structure Consistent (t : SubTable) : Prop where
  /-- The index has a slot for a hash if that slot has one entry of it. -/
  index : ∀ (hash : UInt64) (i : SlotIndex),
    t.index[hash]? = some i ↔ (t.slot i).countP (·.hash == hash) = 1
  /-- No hash occurs twice in the table. -/
  unique : (t.scan.map (·.hash)).Nodup
  stored : ∀ (i : SlotIndex) (members : List Entry), t.slots[i]? = some members → members ≠ []
  capacity : ∀ i, (t.slot i).length ≤ t.capacity
  /-- Entries know their slot. -/
  slot_eq : ∀ i, ∀ e ∈ t.slot i, e.slot = ⟨t.kind, i⟩
  live : ∀ i, ∀ e ∈ t.slot i, e.discarded = false
  contains_eq : ∀ hash, t.contains hash = t.scan.any (·.hash == hash)
  get?_eq : ∀ hash, t.get? hash = t.scan.find? (·.hash == hash)
  size_eq : t.size = t.scan.length
  occupiedSlots_eq : t.occupiedSlots = (t.cells.filter fun i => !(t.slot i).isEmpty).length
  entries_eq : t.entries = t.scan

/-- **A well-formed table reads as its grid.** -/
theorem WellFormed.consistent (hw : t.WellFormed) : t.Consistent where
  index _ _ := hw.index_iff_countP
  unique := hw.nodup_scan
  stored := hw.stored
  capacity := hw.length_le
  slot_eq := hw.slot_eq
  live := hw.live
  contains_eq _ := hw.contains_eq_scan
  get?_eq _ := hw.get?_eq_scan
  size_eq := hw.size_eq_scan
  occupiedSlots_eq := hw.occupiedSlots_eq_scan
  entries_eq := hw.entries_eq_scan

end SubTable

end CubeRouting
