/-
  Where the entries of a node are.

  `RoutingTable.Placed` says of all entries where they are, by shared digits
  alone and as a function of the node and the peer, and which tables a
  configuration leaves empty.

  * `Reachable.tables_placed`: it holds in every state that a node reaches.
-/
import CubeRouting.Proofs.Run.Reachable

namespace CubeRouting

variable {key : Identifier → UInt64} {c : Config} {self : Identifier} {s : Service}

/-- The cell of the first digit in which a peer differs: its level counts from
    the last digit, and its column is that digit of the peer. -/
def IsFirstDifference (self peer : Identifier) (i : SlotIndex) : Prop :=
  ∃ k, self.commonPrefix peer = .ok k ∧ k < self.digits ∧ i.level = self.digits - 1 - k ∧
    peer.digitNat k = .ok i.column

/-- A peer whose first differing digit differs in one bit. -/
def IsSibling (self peer : Identifier) : Prop :=
  ∃ k d, self.commonPrefix peer = .ok k ∧ self.DiffersOnlyIn peer d k

namespace RoutingTable

/-- Where the entries of the tables of a node `x` are. -/
structure Placed (c : Config) (x : Identifier) (t : RoutingTable) : Prop where
  rt1 : ∀ kind ∈ [TableKind.rt1, .secRt1], ∀ i, ∀ e ∈ (t.get kind).slot i,
    IsFirstDifference x e.node.id i
  /-- The column of the node's own digit is empty at every level. -/
  own_column : ∀ kind ∈ [TableKind.rt1, .secRt1], ∀ level < x.digits, ∀ column,
    x.digitNat (x.digits - 1 - level) = .ok column → (t.get kind).slot ⟨level, column⟩ = []
  rt2 : ∀ kind ∈ [TableKind.rt2, .secRt2], ∀ i, ∀ e ∈ (t.get kind).slot i,
    IsLowestNeighbor x e.node.id i
  /-- The cells are a function of the node and the peer. -/
  rt1_cell : ∀ kind ∈ [TableKind.rt1, .secRt1], ∀ i, ∀ e ∈ (t.get kind).slot i,
    ∃ cells, Cells.compute x e.node.id = .ok cells ∧ i = cells.rt1
  rt2_cell : ∀ kind ∈ [TableKind.rt2, .secRt2], ∀ i, ∀ e ∈ (t.get kind).slot i,
    ∃ cells, Cells.compute x e.node.id = .ok cells ∧ cells.rt2 = some i ∧
      i.level ≤ cells.rt1.level
  distance : ∀ kind, ∀ e ∈ (t.get kind).entries, c.metric.measure x e.node.id = .ok e.distance
  shape : ∀ kind, ∀ e ∈ (t.get kind).entries, e.node.id.shape = x.shape ∧ e.node.id ≠ x
  siblings : c.useRt1 = false → c.useRt2 = true → ∀ e ∈ (t.get .rt1).entries, IsSibling x e.node.id
  ns_empty : c.useNs = false → (t.get .ns).entries = []
  rt1_empty : c.useRt1 = false → c.useRt2 = false → (t.get .rt1).entries = []
  rt2_empty : c.useRt2 = false → (t.get .rt2).entries = []
  secure_empty : c.useSecure = false →
    (t.get .secRt1).entries = [] ∧ (t.get .secRt2).entries = []

end RoutingTable

namespace Invariant

variable (h : Invariant key c self s)
include h

/-- An entry is in the cell that it names, and that is one of its peer. -/
theorem hasCell {kind : TableKind} {i : SlotIndex} {e : Entry}
    (he : e ∈ (s.tables.get kind).slot i) : c.HasCell self e.node.id i kind := by
  have hcell := (h.inPlace kind e (SubTable.mem_entries.2 ⟨i, he⟩)).cell
  rwa [(h.wellFormed kind).slot_eq i e he] at hcell

theorem rt1_cell {kind : TableKind} (hkind : kind ∈ [TableKind.rt1, .secRt1]) {i : SlotIndex}
    {e : Entry} (he : e ∈ (s.tables.get kind).slot i) :
    ∃ cells, Cells.compute self e.node.id = .ok cells ∧ i = cells.rt1 := by
  have hcell := h.hasCell he
  rcases List.mem_pair.1 hkind with rfl | rfl
  · obtain ⟨cells, hcells, hi, -⟩ := hcell
    exact ⟨cells, hcells, hi⟩
  · obtain ⟨-, cells, hcells, hi, -⟩ := hcell
    exact ⟨cells, hcells, hi⟩

theorem rt2_cell {kind : TableKind} (hkind : kind ∈ [TableKind.rt2, .secRt2]) {i : SlotIndex}
    {e : Entry} (he : e ∈ (s.tables.get kind).slot i) :
    ∃ cells, Cells.compute self e.node.id = .ok cells ∧ cells.rt2 = some i := by
  have hcell := h.hasCell he
  rcases List.mem_pair.1 hkind with rfl | rfl
  · exact hcell.2
  · exact hcell.2.2

theorem isFirstDifference {kind : TableKind} (hkind : kind ∈ [TableKind.rt1, .secRt1])
    {i : SlotIndex} {e : Entry} (he : e ∈ (s.tables.get kind).slot i) :
    IsFirstDifference self e.node.id i := by
  obtain ⟨cells, hcells, rfl⟩ := h.rt1_cell hkind he
  obtain ⟨-, -, -, hdesc⟩ := Cells.describes_of_compute hcells
  obtain ⟨k, hk, hlt, hlevel, hcolumn, -⟩ := hdesc.rt1
  exact ⟨k, hk, hlt, hlevel, hcolumn⟩

/-- No peer differs from the node in the node's own digit. -/
theorem own_column {kind : TableKind} (hkind : kind ∈ [TableKind.rt1, .secRt1]) {level column : Nat}
    (hlevel : level < self.digits)
    (hown : self.digitNat (self.digits - 1 - level) = .ok column) :
    (s.tables.get kind).slot ⟨level, column⟩ = [] := by
  rw [List.eq_nil_iff_forall_not_mem]
  intro e he
  obtain ⟨k, hk, hlt, hl, hcolumn⟩ := h.isFirstDifference hkind he
  have hplace := h.inPlace kind e (SubTable.mem_entries.2 ⟨_, he⟩)
  obtain ⟨-, -, hdiff⟩ := Identifier.commonPrefix_lt hplace.shape.symm hplace.ne_node.symm hk
  have hdigit : self.digits - 1 - level = k := by
    simp only at hl
    omega
  rw [hdigit] at hown
  exact hdiff (Identifier.digitBits_eq_of_digitNat hplace.shape.symm hown hcolumn)

/-- A table whose cells a configuration does not allow is empty. -/
theorem entries_eq_nil {kind : TableKind} (hno : ∀ id i, ¬c.HasCell self id i kind) :
    (s.tables.get kind).entries = [] := by
  rw [List.eq_nil_iff_forall_not_mem]
  intro e he
  exact hno _ _ (h.inPlace kind e he).cell

end Invariant

/-- **Where the entries are in every state that a node reaches.** -/
theorem Reachable.tables_placed (h : Reachable key c self s) : s.tables.Placed c self := by
  have hinv := h.invariant
  constructor
  case rt1 => exact fun kind hkind i e he => hinv.isFirstDifference hkind he
  case own_column => exact fun kind hkind level hlevel column => hinv.own_column hkind hlevel
  case rt2 =>
    intro kind hkind i e he
    obtain ⟨cells, hcells, hi⟩ := hinv.rt2_cell hkind he
    obtain ⟨-, -, -, hdesc⟩ := Cells.describes_of_compute hcells
    exact (hdesc.rt2 i).1 hi
  case rt1_cell => exact fun kind hkind i e he => hinv.rt1_cell hkind he
  case rt2_cell =>
    intro kind hkind i e he
    obtain ⟨cells, hcells, hi⟩ := hinv.rt2_cell hkind he
    obtain ⟨-, -, -, hdesc⟩ := Cells.describes_of_compute hcells
    exact ⟨cells, hcells, hi, hdesc.rt2_level_le i hi⟩
  case distance => exact fun kind e he => (hinv.inPlace kind e he).distance
  case shape => exact fun kind e he => ⟨(hinv.inPlace kind e he).shape, (hinv.inPlace kind e he).ne_node⟩
  case siblings =>
    intro hrt1 _ e he
    obtain ⟨cells, hcells, -, huse, -⟩ := (hinv.inPlace .rt1 e he).cell
    obtain ⟨-, -, -, hdesc⟩ := Cells.describes_of_compute hcells
    obtain ⟨k, hk, -, -, -, hsibling⟩ := hdesc.rt1
    rcases huse with huse | ⟨-, huse⟩
    · exact absurd (hrt1.symm.trans huse) Bool.false_ne_true
    · obtain ⟨d, hd⟩ := hsibling.1 huse
      exact ⟨k, d, hk, hd⟩
  case ns_empty =>
    intro huse
    refine hinv.entries_eq_nil fun id i hcell => ?_
    rw [Config.HasCell, huse] at hcell
    cases hcell.1
  case rt1_empty =>
    intro hrt1 hrt2
    refine hinv.entries_eq_nil fun id i hcell => ?_
    obtain ⟨cells, -, -, huse | ⟨huse, -⟩, -⟩ := hcell
    · exact Bool.false_ne_true (hrt1.symm.trans huse)
    · exact Bool.false_ne_true (hrt2.symm.trans huse)
  case rt2_empty =>
    intro hrt2
    refine hinv.entries_eq_nil fun id i hcell => ?_
    exact Bool.false_ne_true (hrt2.symm.trans hcell.1)
  case secure_empty =>
    intro huse
    constructor
    · exact hinv.entries_eq_nil fun id i hcell => Bool.false_ne_true (huse.symm.trans hcell.1)
    · exact hinv.entries_eq_nil fun id i hcell => Bool.false_ne_true (huse.symm.trans hcell.1)

theorem tables_placed_notified : ∃ s,
    Reachable Identifier.hash { Config.small with useSecure := true } (.ofFn (.mk 2 4) (· == 6)) s ∧
    s.tables.totalEntries = 5 ∧
    s.tables.Placed { Config.small with useSecure := true } (.ofFn (.mk 2 4) (· == 6)) := by
  have hstart : Reachable Identifier.hash { Config.small with useSecure := true }
      (.ofFn (.mk 2 4) (· == 6)) _ :=
    Reachable.start rfl rfl "10.0.0.1:7000" (.ofSeed 7) (.ofMillis 0)
  have hs := hstart.handle (.notify (.ofFn (.mk 2 4) (· == 4)) "10.0.0.2:7000")
  exact ⟨_, hs, by decide +kernel, hs.tables_placed⟩

end CubeRouting
