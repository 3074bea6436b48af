/-
  Looking up a target in RT1.

  A node looks up a target in the RT1 slot of the target's own cell.  The peers
  of that slot are those that share more leading digits with the target than
  the node does, and no other peer of the table does.

  * `IsFirstDifference.lt_commonPrefix_iff`: a peer makes progress toward a
    target if the two have one cell;
  * `Reachable.lookup_progress`: the slot that a lookup reads.
-/
import CubeRouting.Proofs.Run.Places

namespace CubeRouting

open Identifier

variable {key : Identifier → UInt64} {c : Config} {self peer target : Identifier} {s : Service}

/-! ## Progress -/

/-- The peer shares more leading digits with the target than the node does. -/
def makesProgress (self target peer : Identifier) : Bool :=
  match self.commonPrefix target, peer.commonPrefix target with
  | .ok k, .ok m => k < m
  | _, _ => false

section
variable {i j : SlotIndex} (hs : peer.shape = self.shape) (ht : target.shape = self.shape)
include hs ht

/-- A peer that shares more digits with the target differs from the node in the
    same digit as the target, and has the target's digit there. -/
theorem lt_commonPrefix_iff_digitBits {k k' m : Nat} (hpeer : self ≠ peer)
    (htarget : self ≠ target) (hk : self.commonPrefix peer = .ok k)
    (hk' : self.commonPrefix target = .ok k') (hm : peer.commonPrefix target = .ok m) :
    k' < m ↔ k = k' ∧ peer.digitBits k = target.digitBits k := by
  obtain ⟨hlt, hshare, hdiff⟩ := commonPrefix_lt hs.symm hpeer hk
  obtain ⟨hlt', hshare', hdiff'⟩ := commonPrefix_lt ht.symm htarget hk'
  obtain ⟨m', hm', -, hiff⟩ := exists_commonPrefix (hs.trans ht.symm)
  obtain rfl : m' = m := Except.ok.inj (hm'.symm.trans hm)
  have hdigits : peer.digits = self.digits := congrArg Shape.digits hs
  rw [← Nat.succ_le_iff, hiff _ (by omega)]
  constructor
  · intro hmore
    have hbits : peer.digitBits k' = target.digitBits k' := hmore k' (Nat.lt_succ_self k')
    -- the node leaves the target and the peer at one digit
    rcases Nat.lt_trichotomy k k' with hkk | rfl | hkk
    · exact absurd ((hshare' k hkk).trans (hmore k (by omega)).symm) hdiff
    · exact ⟨rfl, hbits⟩
    · exact absurd ((hshare k' hkk).trans hbits) hdiff'
  · rintro ⟨rfl, hbits⟩ d hd
    rcases Nat.lt_succ_iff_lt_or_eq.1 hd with hd | rfl
    · exact (hshare d hd).symm.trans (hshare' d hd)
    · exact hbits

/-- **Progress toward a target** is made by the peers of its cell. -/
theorem IsFirstDifference.lt_commonPrefix_iff {k m : Nat} (hpeer : self ≠ peer)
    (htarget : self ≠ target) (hi : IsFirstDifference self peer i)
    (hj : IsFirstDifference self target j) (hk : self.commonPrefix target = .ok k)
    (hm : peer.commonPrefix target = .ok m) : k < m ↔ i = j := by
  obtain ⟨kp, hkp, hltp, hlevelp, hcolumnp⟩ := hi
  obtain ⟨kt, hkt, hltt, hlevelt, hcolumnt⟩ := hj
  obtain rfl : kt = k := Except.ok.inj (hkt.symm.trans hk)
  rw [lt_commonPrefix_iff_digitBits hs ht hpeer htarget hkp hkt hm]
  constructor
  · rintro ⟨rfl, hbits⟩
    have hcolumn : i.column = j.column := by
      rw [← (digitNat_eq_ok hcolumnp).2, ← (digitNat_eq_ok hcolumnt).2, hbits]
    have hlevel : i.level = j.level := hlevelp.trans hlevelt.symm
    cases i
    cases j
    exact congrArg₂ SlotIndex.mk hlevel hcolumn
  · rintro rfl
    obtain rfl : kp = kt := by omega
    exact ⟨rfl, digitBits_eq_of_digitNat (hs.trans ht.symm) hcolumnp hcolumnt⟩

end

theorem Adjacency.isFirstDifference {a : Adjacency} (h : compute self target = .ok a) :
    IsFirstDifference self target ⟨a.rt1Level, a.rt1Column⟩ := by
  obtain ⟨-, -, -, hdesc⟩ := describes_of_compute h
  exact ⟨a.shared, hdesc.shared, hdesc.shared_lt, hdesc.rt1Level, hdesc.rt1Column⟩

/-! ## The slot of a target -/

section
variable (h : Reachable key c self s) (ht : target.shape = self.shape) (hne : target ≠ self)
  {kind : TableKind} (hkind : kind ∈ [TableKind.rt1, .secRt1])
include h ht hne hkind

/-- A peer of RT1 makes progress toward a target if it is in the cell of the
    target. -/
theorem Reachable.progress_iff {i : SlotIndex} {e : Entry}
    (he : e ∈ (s.tables.get kind).slot i) :
    ∃ a k m, Adjacency.compute self target = .ok a ∧ self.commonPrefix target = .ok k ∧
      e.node.id.commonPrefix target = .ok m ∧ (k < m ↔ i = ⟨a.rt1Level, a.rt1Column⟩) := by
  have hinv := h.invariant
  have hplace := hinv.inPlace kind e (SubTable.mem_entries.2 ⟨i, he⟩)
  obtain ⟨cells, hcells, -⟩ := hinv.rt1_cell hkind he
  -- a peer in RT1 means that digits are numbers
  obtain ⟨-, -, hD, -⟩ := Cells.describes_of_compute hcells
  obtain ⟨a, ha, -⟩ := Adjacency.exists_compute ht.symm hne.symm hD
  obtain ⟨k, hk, -⟩ := exists_commonPrefix ht.symm
  obtain ⟨m, hm, -⟩ := exists_commonPrefix (hplace.shape.trans ht.symm)
  exact ⟨a, k, m, ha, hk, hm, IsFirstDifference.lt_commonPrefix_iff hplace.shape ht
    hplace.ne_node.symm hne.symm (hinv.isFirstDifference hkind he) (Adjacency.isFirstDifference ha)
    hk hm⟩

/-- **A lookup reads one slot of RT1**, that of its target.  The peers in it
    are all the peers of the table that share more leading digits with the
    target than the node does. -/
theorem Reachable.lookup_progress :
    (∀ e ∈ (s.tables.get kind).entries, ∃ a k m, Adjacency.compute self target = .ok a ∧
      self.commonPrefix target = .ok k ∧ e.node.id.commonPrefix target = .ok m ∧
      (k < m ↔ e ∈ (s.tables.get kind).slot ⟨a.rt1Level, a.rt1Column⟩)) ∧
    ∀ a, Adjacency.compute self target = .ok a →
      (s.tables.get kind).slot ⟨a.rt1Level, a.rt1Column⟩ =
        (s.tables.get kind).entries.filter fun e => makesProgress self target e.node.id := by
  have hw := h.invariant.wellFormed kind
  constructor
  · intro e he
    obtain ⟨i, hi⟩ := SubTable.mem_entries.1 he
    obtain ⟨a, k, m, ha, hk, hm, hiff⟩ := h.progress_iff ht hne hkind hi
    refine ⟨a, k, m, ha, hk, hm, hiff.trans ⟨?_, fun hj => hw.slot_unique hi hj rfl⟩⟩
    rintro rfl
    exact hi
  · intro a ha
    refine (hw.filter_entries fun i e he => ?_).symm
    obtain ⟨a', k, m, ha', hk, hm, hiff⟩ := h.progress_iff ht hne hkind he
    obtain rfl : a' = a := Except.ok.inj (ha'.symm.trans ha)
    rw [makesProgress, hk, hm]
    exact decide_eq_true_iff.trans hiff

end

theorem lookup_progress_notified : ∃ s, Reachable Identifier.hash .small (.zero (.mk 2 4)) s ∧
    s.tables.rt1.entries.length = 2 ∧ (s.tables.rt1.slot ⟨1, 1⟩).length = 1 ∧
    s.tables.rt1.slot ⟨1, 1⟩ = s.tables.rt1.entries.filter fun e =>
      makesProgress (.zero (.mk 2 4)) (.ofFn (.mk 2 4) fun i => i == 4 || i == 6) e.node.id := by
  have hstart : Reachable Identifier.hash .small (.zero (.mk 2 4)) _ :=
    Reachable.start rfl rfl "10.0.0.1:7000" (.ofSeed 7) (.ofMillis 0)
  have hs := (hstart.handle (.notify (.ofFn (.mk 2 4) (· == 4)) "10.0.0.2:7000")).handle
    (.notify (.ofFn (.mk 2 4) (· == 0)) "10.0.0.3:7000")
  have hplace : Adjacency.compute (.zero (.mk 2 4)) (.ofFn (.mk 2 4) fun i => i == 4 || i == 6) =
      .ok ⟨2, 1, 1, true, some ⟨0, 0, 1⟩⟩ := by decide +kernel
  have hshape : (Identifier.ofFn (.mk 2 4) fun i => i == 4 || i == 6).shape =
      (Identifier.zero (.mk 2 4)).shape := rfl
  exact ⟨_, hs, by decide +kernel, by decide +kernel,
    (hs.lookup_progress hshape (by decide) (List.mem_cons_self ..)).2 _ hplace⟩

end CubeRouting
