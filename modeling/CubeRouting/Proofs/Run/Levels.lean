/-
  Levels against distances.

  The level of a cell is read off the shared digits of a peer, and distances
  are read off its coordinates.

  * `Identifier.PrefixBounds`: what the length of the common prefix says about
    the distances of two identifiers;
  * `RoutingTable.LevelBounds`: what the cell of an entry says about its
    distance from the node;
  * `Reachable.level_bounds`: both hold, the second in every state that a node
    reaches.
-/
import CubeRouting.Proofs.Run.Places
import CubeRouting.Proofs.Torus.Distance

namespace CubeRouting

open BitString (toNat gap)

variable {key : Identifier → UInt64} {c : Config} {self : Identifier} {s : Service}

/-- Identifiers that share `k` digits are close along every axis and on the
    circle of all identifiers, and that is what the metrics read. -/
structure Identifier.PrefixBounds (x y : Identifier) (k : Nat) : Prop where
  axis_eq : ∀ a, toNat (gap (x.coordinateBits a) (y.coordinateBits a)) = x.axisGap y a
  axis_lt : ∀ a < x.dimensions, x.axisGap y a < 2 ^ (x.digits - k)
  ring_eq : toNat (gap x.ringBits y.ringBits) = x.ringGap y
  ring_lt : x.ringGap y < 2 ^ (x.dimensions * (x.digits - k))

theorem Identifier.prefixBounds {x y : Identifier} {k : Nat} (hs : x.shape = y.shape)
    (hk : x.commonPrefix y = .ok k) : x.PrefixBounds y k := by
  obtain ⟨k', hk', hle, hiff⟩ := exists_commonPrefix hs
  obtain rfl : k' = k := Except.ok.inj (hk'.symm.trans hk)
  have hshare : x.SharesPrefix y k' := (hiff k' hle).1 (Nat.le_refl k')
  exact ⟨toNat_gap_coordinateBits hs, fun _ ha => hshare.axisGap_lt hs hle ha,
    toNat_gap_ringBits hs, hshare.ringGap_lt hs hle⟩

/-- The exact distances of the entries of a node `x` are bounded by their
    levels. -/
structure RoutingTable.LevelBounds (x : Identifier) (t : RoutingTable) : Prop where
  rt1 : ∀ kind ∈ [TableKind.rt1, .secRt1], ∀ i, ∀ e ∈ (t.get kind).slot i,
    ∀ a < x.dimensions, x.axisGap e.node.id a < 2 ^ (i.level + 1)
  /-- The dimension of an RT2 cell is its column. -/
  rt2_along : ∀ kind ∈ [TableKind.rt2, .secRt2], ∀ i, ∀ e ∈ (t.get kind).slot i,
    x.axisGap e.node.id i.column < 2 ^ (i.level + 1)
  rt2_across : ∀ kind ∈ [TableKind.rt2, .secRt2], ∀ i, ∀ e ∈ (t.get kind).slot i,
    ∀ a < x.dimensions, a ≠ i.column → x.axisGap e.node.id a < 2 ^ i.level

namespace Invariant

variable (h : Invariant key c self s) {kind : TableKind} {i : SlotIndex} {e : Entry}
include h

theorem axisGap_rt1_lt (hkind : kind ∈ [TableKind.rt1, .secRt1])
    (he : e ∈ (s.tables.get kind).slot i) {a : Nat} (ha : a < self.dimensions) :
    self.axisGap e.node.id a < 2 ^ (i.level + 1) := by
  obtain ⟨k, hk, hlt, hlevel, -⟩ := h.isFirstDifference hkind he
  have hs := (h.inPlace kind e (SubTable.mem_entries.2 ⟨i, he⟩)).shape.symm
  have hgap := (Identifier.prefixBounds hs hk).axis_lt a ha
  rwa [show self.digits - k = i.level + 1 by omega] at hgap

/-- An RT2 entry is in the neighboring hypercube of its cell. -/
theorem isLowestNeighbor (hkind : kind ∈ [TableKind.rt2, .secRt2])
    (he : e ∈ (s.tables.get kind).slot i) :
    self.shape = e.node.id.shape ∧ IsLowestNeighbor self e.node.id i := by
  obtain ⟨cells, hcells, hi⟩ := h.rt2_cell hkind he
  obtain ⟨hs, -, -, hdesc⟩ := Cells.describes_of_compute hcells
  exact ⟨hs, (hdesc.rt2 i).1 hi⟩

end Invariant

/-- **The level of an entry bounds its distance**, in every state that a node
    reaches; and a common prefix bounds the distance of any two identifiers. -/
theorem Reachable.level_bounds (h : Reachable key c self s) : s.tables.LevelBounds self ∧
    ∀ (x y : Identifier) (k : Nat), x.shape = y.shape → x.commonPrefix y = .ok k →
      x.PrefixBounds y k := by
  have hinv := h.invariant
  refine ⟨⟨?rt1, ?along, ?across⟩, fun x y k => Identifier.prefixBounds⟩
  case rt1 => exact fun kind hkind i e he a ha => hinv.axisGap_rt1_lt hkind he ha
  case along =>
    intro kind hkind i e he
    obtain ⟨hs, hc, hl, hn, -⟩ := hinv.isLowestNeighbor hkind he
    exact hn.axisGap_lt hs hc hl
  case across =>
    intro kind hkind i e he a ha hne
    obtain ⟨hs, hc, hl, hn, -⟩ := hinv.isLowestNeighbor hkind he
    exact hn.axisGap_lt_of_ne hs hc hl ha hne

theorem level_bounds_notified : ∃ s,
    Reachable Identifier.hash { Config.small with useSecure := true } (.ofFn (.mk 2 4) (· == 6)) s ∧
    s.tables.totalEntries = 5 ∧ s.tables.LevelBounds (.ofFn (.mk 2 4) (· == 6)) ∧
    ∀ (x y : Identifier) (k : Nat), x.shape = y.shape → x.commonPrefix y = .ok k →
      x.PrefixBounds y k := by
  have hstart : Reachable Identifier.hash { Config.small with useSecure := true }
      (.ofFn (.mk 2 4) (· == 6)) _ :=
    Reachable.start rfl rfl "10.0.0.1:7000" (.ofSeed 7) (.ofMillis 0)
  have hs := hstart.handle (.notify (.ofFn (.mk 2 4) (· == 4)) "10.0.0.2:7000")
  exact ⟨_, hs, by decide +kernel, hs.level_bounds⟩

end CubeRouting
