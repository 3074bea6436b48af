/-
  What the cells of a peer mean.

  `Cells.Describes` says it by shared digits alone: the RT1 cell is that of the
  first digit that differs, and the RT2 cell is the lowest level at which the
  peer is in a neighboring hypercube.  A bound on the levels takes an RT2 cell
  away but never moves it to another level.

  * `exists_compute`, `describes_of_compute`: the cells that are computed are
    described.
-/
import CubeRouting.Placement.Standing
import CubeRouting.Proofs.BitString
import CubeRouting.Proofs.Placement.Neighbors

namespace CubeRouting

open Identifier

/-- The peer is in the neighboring hypercube of a cell, and in none of a lower
    level along the same dimension. -/
def IsLowestNeighbor (self peer : Identifier) (i : SlotIndex) : Prop :=
  i.column < self.dimensions ∧ i.level < self.digits ∧ IsNeighborAt self peer i.column i.level ∧
    ∀ l < i.level, ¬IsNeighborAt self peer i.column l

/-! ## Digits as numbers -/

section
variable {x y : Identifier} {d v : Nat}

theorem Identifier.digitWord_eq (hD : x.dimensions < wordBits) (d : Nat) :
    x.digitWord d = BitString.toNat (x.digitBits d).reverse := by
  rw [digitWord, List.take_of_length_le]
  rw [length_digitBits]
  exact Nat.le_of_lt hD

theorem Identifier.digitNat_eq_ok (h : x.digitNat d = .ok v) :
    x.dimensions < wordBits ∧ BitString.toNat (x.digitBits d).reverse = v := by
  rw [digitNat] at h
  split at h
  · cases h
  rename_i hD
  rw [checkIndex] at h
  split at h
  · cases h
    have hlt : x.dimensions < wordBits := Nat.lt_of_not_le hD
    exact ⟨hlt, (digitWord_eq hlt d).symm⟩
  · cases h

theorem Identifier.digitNat_lt (h : x.digitNat d = .ok v) : v < 2 ^ x.dimensions := by
  have hlt := BitString.toNat_lt (x.digitBits d).reverse
  rwa [(digitNat_eq_ok h).2, List.length_reverse, length_digitBits] at hlt

/-- A digit is its number. -/
theorem Identifier.digitBits_eq_of_digitNat (hs : x.shape = y.shape) (hx : x.digitNat d = .ok v)
    (hy : y.digitNat d = .ok v) : x.digitBits d = y.digitBits d := by
  have hlen : (x.digitBits d).reverse.length = (y.digitBits d).reverse.length := by
    simpa using congrArg Shape.dimensions hs
  refine List.reverse_inj.1 (BitString.toNat_inj hlen ?_)
  rw [(digitNat_eq_ok hx).2, (digitNat_eq_ok hy).2]

end

namespace Cells

/-- What the cells of a peer mean. -/
structure Describes (cells : Cells) (x y : Identifier) : Prop where
  rt1 : ∃ k, x.commonPrefix y = .ok k ∧ k < x.digits ∧ cells.rt1.level = x.digits - 1 - k ∧
    y.digitNat k = .ok cells.rt1.column ∧
    (cells.sibling = true ↔ ∃ c, x.DiffersOnlyIn y c k)
  rt2 : ∀ i, cells.rt2 = some i ↔ IsLowestNeighbor x y i
  rt2_level_le : ∀ i, cells.rt2 = some i → i.level ≤ cells.rt1.level
  rt2Below : ∀ i, cells.rt2Below = some i ↔ cells.rt2 = some i ∧ i.level < cells.rt1.level

variable {self peer : Identifier} {k : Nat} {scan : Rt2Scan}

/-- The cell of the scan below a bound. -/
theorem exists_rt2At (hs : self.shape = peer.shape) (hk : self.commonPrefix peer = .ok k)
    (hscan : Adjacency.Scans scan self peer k) (bound : Nat) :
    ∃ r, rt2At scan self peer bound = .ok r ∧
      ∀ i, r = some i ↔ IsLowestNeighbor self peer i ∧ i.level < bound := by
  obtain ⟨r, hr, hsome, -⟩ := Rt2Scan.matchingLevel_ok hs hk hscan bound
  refine ⟨r.map (⟨·, scan.dimension⟩), by rw [rt2At, hr]; rfl, fun i => ?_⟩
  rw [Option.map_eq_some_iff]
  constructor
  · rintro ⟨l, hl, rfl⟩
    obtain ⟨⟨hlt, hbound, hn⟩, hfirst⟩ := (hsome l).1 hl
    exact ⟨⟨hscan.dimension.1, hlt, hn, hfirst⟩, hbound⟩
  · rintro ⟨⟨hc, hl, hn, hfirst⟩, hbound⟩
    -- the dimension is that of the scan
    have hdim : scan.dimension = i.column :=
      ((hn.differsOnlyIn hs hc hl hk).1.unique hscan.dimension)
    rw [← hdim] at hn hfirst
    exact ⟨i.level, (hsome _).2 ⟨⟨hl, hbound, hn⟩, hfirst⟩, by rw [hdim]⟩

/-- **The cells of a peer**: they exist and describe the peer. -/
theorem exists_compute (hs : self.shape = peer.shape) (hne : self ≠ peer)
    (hD : self.dimensions < wordBits) :
    ∃ cells, compute self peer = .ok cells ∧ cells.Describes self peer := by
  obtain ⟨a, ha, hdesc⟩ := Adjacency.exists_compute hs hne hD
  have hrt1 : ∃ k, self.commonPrefix peer = .ok k ∧ k < self.digits ∧
      a.rt1Level = self.digits - 1 - k ∧ peer.digitNat k = .ok a.rt1Column ∧
      (a.sibling = true ↔ ∃ c, self.DiffersOnlyIn peer c k) :=
    ⟨a.shared, hdesc.shared, hdesc.shared_lt, hdesc.rt1Level, hdesc.rt1Column, hdesc.sibling⟩
  cases hrt2 : a.rt2 with
  | none =>
    have hno : ∀ i, ¬IsLowestNeighbor self peer i := by
      rintro i ⟨hc, hl, hn, -⟩
      obtain ⟨scan, hscan, -⟩ := hdesc.of_neighbor hs hc hl hn
      rw [hrt2] at hscan
      cases hscan
    refine ⟨⟨⟨a.rt1Level, a.rt1Column⟩, a.sibling, none, none⟩, ?_, hrt1, fun i => ?_, ?_, ?_⟩
    · simp only [compute, ha, ok_bind, hrt2]
      rfl
    · exact iff_of_false (by simp) (hno i)
    · exact fun i hi => by cases hi
    · exact fun i => iff_of_false (by simp) fun h => by cases h.1
  | some scan =>
    have hscan := hdesc.scans scan hrt2
    obtain ⟨r, hr, hrt2At⟩ := exists_rt2At hs hdesc.shared hscan (scan.maxLevel + 1)
    obtain ⟨below, hbelow, hbelowAt⟩ := exists_rt2At hs hdesc.shared hscan a.rt1Level
    have hle : ∀ i, IsLowestNeighbor self peer i → i.level ≤ a.rt1Level := by
      rintro i ⟨hc, hl, hn, -⟩
      rw [hdesc.rt1Level]
      exact (hn.differsOnlyIn hs hc hl hdesc.shared).2
    have hmax : scan.maxLevel = a.rt1Level := by rw [hscan.maxLevel, hdesc.rt1Level]
    refine ⟨⟨⟨a.rt1Level, a.rt1Column⟩, a.sibling, r, below⟩, ?_, hrt1, fun i => ?_, fun i hi => ?_,
      fun i => ?_⟩
    · simp only [compute, ha, ok_bind, hrt2, hr, hbelow]
      rfl
    · rw [hrt2At, hmax]
      exact ⟨fun h => h.1, fun h => ⟨h, Nat.lt_succ_of_le (hle i h)⟩⟩
    · exact hle i ((hrt2At i).1 hi).1
    · rw [hbelowAt, hrt2At, hmax]
      exact ⟨fun ⟨h, hlt⟩ => ⟨⟨h, Nat.lt_succ_of_lt hlt⟩, hlt⟩, fun ⟨⟨h, _⟩, hlt⟩ => ⟨h, hlt⟩⟩

theorem describes_of_compute {cells : Cells} (h : compute self peer = .ok cells) :
    self.shape = peer.shape ∧ self ≠ peer ∧ self.dimensions < wordBits ∧
      cells.Describes self peer := by
  have hplace : ∃ a, Adjacency.compute self peer = .ok a := by
    cases ha : Adjacency.compute self peer with
    | ok a => exact ⟨a, rfl⟩
    | error e =>
      rw [compute, ha] at h
      cases h
  obtain ⟨a, ha⟩ := hplace
  obtain ⟨hs, hne, hD, -⟩ := Adjacency.describes_of_compute ha
  obtain ⟨cells', hcells', hdesc⟩ := exists_compute hs hne hD
  obtain rfl : cells' = cells := Except.ok.inj (hcells'.symm.trans h)
  exact ⟨hs, hne, hD, hdesc⟩

end Cells

theorem Standing.compute_ok {c : Config} {self peer : Identifier} {standing : Standing}
    (h : Standing.compute c self peer = .ok standing) :
    c.metric.measure self peer = .ok standing.distance ∧
      standing.cells.isSome = c.usesRoutingTables ∧
      ∀ cells ∈ standing.cells, Cells.compute self peer = .ok cells := by
  rw [compute] at h
  cases hm : (c.metric.measure self peer : Except IdentifierError Binary64) with
  | error fault =>
    rw [hm] at h
    cases h
  | ok distance =>
    rw [hm, ok_bind] at h
    cases huse : c.usesRoutingTables with
    | false =>
      rw [huse] at h
      cases h
      exact ⟨rfl, rfl, fun cells hcells => by cases hcells⟩
    | true =>
      rw [huse] at h
      cases hc : Cells.compute self peer with
      | error fault =>
        rw [hc] at h
        cases h
      | ok cells =>
        rw [hc] at h
        cases h
        refine ⟨rfl, rfl, fun cells' hcells' => ?_⟩
        cases hcells'
        rfl

end CubeRouting
