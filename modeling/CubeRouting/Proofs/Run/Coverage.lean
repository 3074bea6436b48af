/-
  Peers that fall between the routing tables.

  RT1 may leave a peer to RT2 that RT2 covers at a lower level.  Whether RT2 is
  filled at all is not looked at: if it is not, such a peer reaches no routing
  table.

  * `TablePair.Places.rt2_reaches_of_left`: what RT1 leaves is offered to RT2 if
    that is filled;
  * `TablePair.Places.neither_reaches_iff`: which peers neither table takes;
  * `Reachable.isRouted_iff`: which peers reach a routing table.
-/
import CubeRouting.Proofs.Run.Places

namespace CubeRouting

variable {key : Identifier → UInt64} {c : Config} {self : Identifier} {s : Service}

/-! ## A pair of tables -/

theorem Placement.reaches_of_holdsPeer {p : Placement} (h : p.holdsPeer = true) :
    p.reaches = true := by
  cases p with
  | alreadyPresent => rfl
  | considered => rfl
  | _ => cases h

namespace TablePair.Places

variable {pair : TablePair} {leaveToRt2 : Bool} {cells : Option Cells} {candidate : Candidate}
  {before after : RoutingTable} {first second : Placement} {self peer : Identifier} {x : Cells}

/-- A peer that RT1 could take is left to RT2, which takes it if it is filled. -/
theorem rt2_reaches_of_left
    (h : pair.Places leaveToRt2 cells candidate before after first second) (hx : x ∈ cells)
    (hdesc : x.Describes self peer)
    (huse : pair.useRt1 = true ∨ pair.useRt2 = true ∧ x.sibling = true)
    (hleft : first.reaches = false) :
    leaveToRt2 = true ∧ x.rt2Below.isSome = true ∧
      (second.reaches = true ↔ pair.useRt2 = true) := by
  have hno := (not_congr (h.rt1_reaches x hx)).1 (by rw [hleft]; exact Bool.false_ne_true)
  have hon : (pair.useRt1 || pair.useRt2) = true ∧ (pair.useRt1 || x.sibling) = true := by
    rcases huse with huse | ⟨huse, hsibling⟩
    · simp [huse]
    · simp [huse, hsibling]
  have hleave : ¬(leaveToRt2 = true → x.rt2Below = none) :=
    fun hl => hno ⟨hon.1, Or.inr ⟨hon.2, hl⟩⟩
  rw [Classical.not_imp, ← ne_eq, Option.ne_none_iff_isSome] at hleave
  obtain ⟨hleave, hsome⟩ := hleave
  refine ⟨hleave, hsome, ?_⟩
  have hholds : first.holdsPeer = false := by
    by_contra hholds
    rw [Bool.not_eq_false] at hholds
    rw [Placement.reaches_of_holdsPeer hholds] at hleft
    cases hleft
  obtain ⟨i, hi⟩ := Option.isSome_iff_exists.1 hsome
  rw [h.rt2_reaches x hx, hholds, if_neg Bool.false_ne_true, ((hdesc.rt2Below i).1 hi).1]
  simp

/-- **The peers that neither table takes** are left to an RT2 that is not
    filled. -/
theorem neither_reaches_iff
    (h : pair.Places leaveToRt2 cells candidate before after first second) (hx : x ∈ cells)
    (hdesc : x.Describes self peer) (huse : pair.useRt1 = true)
    (hstored : (before.get pair.rt1).contains candidate.node.hash = true → leaveToRt2 = true →
      x.rt2Below = none) :
    first.reaches = false ∧ second.reaches = false ↔
      pair.useRt2 = false ∧ leaveToRt2 = true ∧ x.rt2Below.isSome = true := by
  constructor
  · rintro ⟨hfirst, hsecond⟩
    obtain ⟨hleave, hbelow, htakes⟩ := h.rt2_reaches_of_left hx hdesc (Or.inl huse) hfirst
    refine ⟨?_, hleave, hbelow⟩
    rw [← Bool.not_eq_true, ← htakes, hsecond]
    exact Bool.false_ne_true
  · rintro ⟨hoff, hleave, hbelow⟩
    rw [← Bool.not_eq_true, ← Bool.not_eq_true, h.rt1_reaches x hx, h.rt2_reaches x hx, hoff]
    refine ⟨?_, fun hboth => Bool.false_ne_true hboth.1⟩
    rintro ⟨-, hold | ⟨-, hnone⟩⟩
    · rw [hstored hold hleave] at hbelow
      cases hbelow
    · rw [hnone hleave] at hbelow
      cases hbelow

end TablePair.Places

/-! ## The routing tables -/

/-- A routing table has the peer or considered it. -/
def Report.isRouted (r : Report) : Bool := r.rt1.reaches || r.rt2.reaches

/-- The peer is in a neighboring hypercube of a lower level than its first
    differing digit. -/
def IsNeighborBelow (self peer : Identifier) : Prop :=
  ∃ k, self.commonPrefix peer = .ok k ∧
    ∃ i, IsLowestNeighbor self peer i ∧ i.level < self.digits - 1 - k

/-- The cells of a peer show whether it is in a neighboring hypercube of a
    lower level. -/
theorem Cells.Describes.isNeighborBelow_iff {self peer : Identifier} {x : Cells}
    (h : x.Describes self peer) : IsNeighborBelow self peer ↔ x.rt2Below.isSome = true := by
  obtain ⟨k, hk, -, hlevel, -⟩ := h.rt1
  rw [Option.isSome_iff_exists]
  constructor
  · rintro ⟨k', hk', i, hi, hlt⟩
    rw [hk] at hk'
    cases hk'
    exact ⟨i, (h.rt2Below i).2 ⟨(h.rt2 i).2 hi, hlevel ▸ hlt⟩⟩
  · rintro ⟨i, hi⟩
    obtain ⟨hrt2, hlt⟩ := (h.rt2Below i).1 hi
    exact ⟨k, hk, i, (h.rt2 i).1 hrt2, hlevel ▸ hlt⟩

theorem Cells.Describes.isSibling_iff {self peer : Identifier} {x : Cells}
    (h : x.Describes self peer) : IsSibling self peer ↔ x.sibling = true := by
  obtain ⟨k, hk, -, -, -, hsibling⟩ := h.rt1
  rw [hsibling]
  constructor
  · rintro ⟨k', d, hk', hd⟩
    rw [hk] at hk'
    cases hk'
    exact ⟨d, hd⟩
  · rintro ⟨d, hd⟩
    exact ⟨k, d, hk, hd⟩

section
variable {id : Identifier} {address : Address} {time : Timestamp} {report : Report}

/-- What RT1 has of the peer is a peer that it does not leave to RT2. -/
theorem Invariant.rt1_contains (h : Invariant key c self s)
    (hno : s.engine.conflict? (.keyed key id address) = none)
    (hc : s.tables.rt1.contains (key id) = true) {x : Cells}
    (hx : Cells.compute self id = .ok x) (hleave : c.excludeRt2Scope = true) :
    x.rt2Below = none := by
  obtain ⟨e, he, hh⟩ := (h.wellFormed .rt1).contains_iff.1 hc
  have hid : e.node.id = id := Engine.id_eq_of_conflict? h.wellFormed hno he hh
  obtain ⟨y, hy, -, -, hnone⟩ := (h.inPlace .rt1 e he).cell
  rw [hid, hx] at hy
  cases hy
  exact hnone hleave

/-- How a notification fills RT1 and RT2. -/
theorem Reachable.exists_places (h : Reachable key c self s)
    (hp : (s.engine.notify (.keyed key id address) time).2 = .processed report)
    (huse : c.useRt1 = true ∨ c.useRt2 = true) :
    ∃ (x : Cells) (candidate : Candidate) (before after : RoutingTable), x.Describes self id ∧
      (TablePair.primary c).Places c.excludeRt2Scope (some x) candidate before after
        report.rt1 report.rt2 ∧
      ((before.get .rt1).contains candidate.node.hash = true → c.excludeRt2Scope = true →
        x.rt2Below = none) := by
  have hinv := h.invariant
  obtain ⟨-, hconflict, standing, hstanding, -, hplaces⟩ := Engine.notify_processed hp
  obtain ⟨-, hsome, hcells⟩ := Standing.compute_ok hstanding
  have hprimary := hplaces.primary
  rw [hinv.self_id] at hcells
  rw [hinv.config_eq] at hprimary hsome
  have huses : c.usesRoutingTables = true := by
    rcases huse with huse | huse <;> simp [Config.usesRoutingTables, huse]
  obtain ⟨x, hx⟩ := Option.isSome_iff_exists.1 (hsome.trans huses)
  obtain ⟨-, -, -, hdesc⟩ := Cells.describes_of_compute (hcells x hx)
  rw [hx] at hprimary
  refine ⟨x, _, _, _, hdesc, hprimary, fun hstored => ?_⟩
  -- the peer was in RT1 before it moved
  have hmoved : ((s.tables.updateAddress (.keyed key id address)).1.get .rt1).contains (key id) =
      s.tables.rt1.contains (key id) :=
    (RoutingTable.edits_updateAddress _ (hinv.wellFormed .rt1)).contains_eq
  exact hinv.rt1_contains hconflict (hmoved.symm.trans hstored) (hcells x hx)

/-- **Which peers reach a routing table**: with RT1 in use all but those that
    are left to an RT2 that is not filled, and without RT1 all siblings. -/
theorem Reachable.isRouted_iff (h : Reachable key c self s)
    (hp : (s.engine.notify (.keyed key id address) time).2 = .processed report) :
    (c.useRt1 = true → (report.isRouted = false ↔
      c.useRt2 = false ∧ c.excludeRt2Scope = true ∧ IsNeighborBelow self id)) ∧
    (c.useRt1 = false → c.useRt2 = true → IsSibling self id → report.isRouted = true) ∧
    (c.useRt2 = true → c.useRt1 = true ∨ IsSibling self id → report.rt1 = .excluded →
      report.rt2.reaches = true) := by
  refine ⟨fun h₁ => ?_, fun h₁ h₂ hsibling => ?_, fun h₂ huse hout => ?_⟩
  · obtain ⟨x, candidate, before, after, hdesc, hplaces, hstored⟩ := h.exists_places hp (Or.inl h₁)
    rw [Report.isRouted, Bool.or_eq_false_iff, hdesc.isNeighborBelow_iff]
    exact hplaces.neither_reaches_iff rfl hdesc h₁ hstored
  · obtain ⟨x, candidate, before, after, hdesc, hplaces, -⟩ := h.exists_places hp (Or.inr h₂)
    rw [Report.isRouted, Bool.or_eq_true, or_iff_not_imp_left, Bool.not_eq_true]
    intro hleft
    have hor : c.useRt1 = true ∨ c.useRt2 = true ∧ x.sibling = true :=
      Or.inr ⟨h₂, hdesc.isSibling_iff.1 hsibling⟩
    exact (hplaces.rt2_reaches_of_left rfl hdesc hor hleft).2.2.2 h₂
  · obtain ⟨x, candidate, before, after, hdesc, hplaces, -⟩ := h.exists_places hp (Or.inr h₂)
    have hor : c.useRt1 = true ∨ c.useRt2 = true ∧ x.sibling = true :=
      huse.imp_right fun hsibling => ⟨h₂, hdesc.isSibling_iff.1 hsibling⟩
    exact (hplaces.rt2_reaches_of_left rfl hdesc hor (by rw [hout]; rfl)).2.2.2 h₂

end

/-- RT1 leaves a peer to an RT2 that is not filled. -/
theorem isRouted_iff_unfilledRt2 : ∃ (s : Service) (report : Report),
    Reachable Identifier.hash { Config.small with excludeRt2Scope := true, useRt2 := false }
      (.ofFn (.mk 2 4) (· == 6)) s ∧
    (s.engine.notify (.keyed Identifier.hash (.ofFn (.mk 2 4) (· == 4)) "10.0.0.2:7000")
      (.ofMillis 5)).2 = .processed report ∧
    report.rt1 = .excluded ∧ report.rt2 = .disabled ∧
    IsNeighborBelow (.ofFn (.mk 2 4) (· == 6)) (.ofFn (.mk 2 4) (· == 4)) := by
  have hstart : Reachable Identifier.hash
      { Config.small with excludeRt2Scope := true, useRt2 := false } (.ofFn (.mk 2 4) (· == 6)) _ :=
    Reachable.start rfl rfl "10.0.0.1:7000" (.ofSeed 7) (.ofMillis 0)
  let report : Report := ⟨Identifier.hash (.ofFn (.mk 2 4) (· == 4)), 1,
    .considered ⟨0, 0⟩ .admitted, .excluded, .disabled, .disabled, .disabled⟩
  refine ⟨_, report, hstart, ?processed, rfl, rfl,
    (((hstart.isRouted_iff ?processed).1 rfl).1 rfl).2.2⟩
  decide +kernel

theorem not_isRouted_unfilledRt2 : ¬∀ (c : Config) (self id : Identifier) (s : Service)
    (address : Address) (time : Timestamp) (report : Report), Reachable Identifier.hash c self s →
    (s.engine.notify (.keyed Identifier.hash id address) time).2 = .processed report →
    c.useRt1 = true → report.isRouted = true := by
  intro hall
  have hstart : Reachable Identifier.hash
      { Config.small with excludeRt2Scope := true, useRt2 := false } (.ofFn (.mk 2 4) (· == 6)) _ :=
    Reachable.start rfl rfl "10.0.0.1:7000" (.ofSeed 7) (.ofMillis 0)
  have hrouted := hall _ _ (.ofFn (.mk 2 4) (· == 4)) _ "10.0.0.2:7000" (.ofMillis 5)
    ⟨Identifier.hash (.ofFn (.mk 2 4) (· == 4)), 1, .considered ⟨0, 0⟩ .admitted, .excluded,
      .disabled, .disabled, .disabled⟩ hstart (by decide +kernel) rfl
  cases hrouted

end CubeRouting
