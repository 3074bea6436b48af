/-
  Placement does not fail.

  A node with a valid configuration can place every peer that passes the gate:
  the place of the peer exists and is computed in range, the slots that it is
  offered to exist, and the policies compute all that they need.

  * `notify_gate`: which peers are placed, and which have the wrong shape;
  * `Reachable.placement_total`: nothing fails in any state of a node.
-/
import CubeRouting.Proofs.Placement.Ranges
import CubeRouting.Proofs.Placement.Records
import CubeRouting.Proofs.Run.Reachable

namespace CubeRouting

variable {key : Identifier → UInt64} {c : Config} {self : Identifier} {s : Service}

/-! ## The gate -/

/-- The peer passes the gate. -/
structure Engine.Passes (e : Engine) (peer : NodeRecord) (time : Timestamp) : Prop where
  other : peer.hash ≠ e.self.hash
  shape : peer.id.shape = e.self.id.shape
  free : e.inFlight.contains peer.hash = false
  notRecent : (e.checkRecent peer.hash time).1 = false
  noConflict : e.conflict? peer = none

namespace Engine

variable {e : Engine} {peer : NodeRecord} {standing : Standing}

theorem conflict?_ne_shapeMismatch (e : Engine) (peer : NodeRecord) :
    e.conflict? peer ≠ some .shapeMismatch := by
  rcases e.conflict?_cases peer with h | h | h <;> rw [h] <;> nofun

/-- A claimed peer with a place is placed if it is not recent and not in
    conflict. -/
theorem process_gate (hs : Standing.compute e.config e.self.id peer.id = .ok standing)
    (time : Timestamp) :
    (e.process peer time).2 ≠ .skipped .shapeMismatch ∧
      ((∃ report, (e.process peer time).2 = .processed report) ↔
        (e.checkRecent peer.hash time).1 = false ∧ e.conflict? peer = none) := by
  have hsame := e.sameState_checkRecent peer.hash time
  unfold process
  dsimp only
  generalize e.checkRecent peer.hash time = looked at hsame ⊢
  rw [hsame.conflict?, hsame.config, hsame.self, hs]
  split
  · rename_i hrecent
    refine ⟨(fun h => by cases h), iff_of_false (fun ⟨_, h⟩ => by cases h) fun h => ?_⟩
    rw [hrecent] at h
    cases h.1
  rename_i hrecent
  rw [Bool.not_eq_true] at hrecent
  cases hconflict : e.conflict? peer with
  | some reason =>
    refine ⟨fun h => ?_, iff_of_false (fun ⟨_, h⟩ => by cases h) fun h => by cases h.2⟩
    cases h
    exact e.conflict?_ne_shapeMismatch peer hconflict
  | none => exact ⟨(fun h => by cases h), iff_of_true ⟨_, rfl⟩ ⟨hrecent, rfl⟩⟩

/-- **What passes the gate is placed**, if the peers of the node's shape have a
    place; other peers of another shape have the wrong one. -/
theorem notify_gate (e : Engine) (peer : NodeRecord) (time : Timestamp)
    (hs : peer.hash ≠ e.self.hash → peer.id.shape = e.self.id.shape →
      ∃ standing, Standing.compute e.config e.self.id peer.id = .ok standing) :
    ((e.notify peer time).2 = .skipped .shapeMismatch ↔
      peer.hash ≠ e.self.hash ∧ peer.id.shape ≠ e.self.id.shape) ∧
    ((∃ report, (e.notify peer time).2 = .processed report) ↔ e.Passes peer time) := by
  unfold notify
  split
  · rename_i hself
    exact ⟨iff_of_false (fun h => by cases h) fun h => h.1 hself,
      iff_of_false (fun ⟨_, h⟩ => by cases h) fun h => h.other hself⟩
  rename_i hself
  split
  · rename_i hshape
    exact ⟨iff_of_true rfl ⟨hself, hshape⟩,
      iff_of_false (fun ⟨_, h⟩ => by cases h) fun h => hshape h.shape⟩
  rename_i hshape
  rw [not_not] at hshape
  obtain ⟨standing, hstanding⟩ := hs hself hshape
  unfold InFlight.acquire?
  by_cases hclaim : e.inFlight.contains peer.hash = true
  · rw [if_pos hclaim]
    refine ⟨iff_of_false (fun h => by cases h) fun h => h.2 hshape,
      iff_of_false (fun ⟨_, h⟩ => by cases h) fun h => ?_⟩
    rw [h.free] at hclaim
    cases hclaim
  rw [if_neg hclaim]
  rw [Bool.not_eq_true] at hclaim
  dsimp only
  obtain ⟨hmismatch, hplaced⟩ := process_gate
    (e := { e with inFlight := ⟨peer.hash :: e.inFlight.hashes⟩ }) hstanding time
  refine ⟨iff_of_false hmismatch fun h => h.2 hshape, ?_⟩
  rw [hplaced, (checkRecent_claimed ..).1]
  exact ⟨fun h => ⟨hself, hshape, hclaim, h.1, h.2⟩, fun h => ⟨h.notRecent, h.noConflict⟩⟩

end Engine

/-! ## The place of a peer -/

/-- The place of a peer and every search for an RT2 level are computed in
    range. -/
def Adjacency.InRange (self peer : Identifier) : Prop :=
  ∃ a, compute self peer = .ok a ∧ checkedCompute self peer = .ok a ∧
    ∀ scan ∈ a.rt2, ∀ bound, ∃ level, scan.matchingLevel self peer bound = .ok level ∧
      scan.checkedMatchingLevel self peer bound = .ok level

section
variable {peer : Identifier} (hs : self.shape = peer.shape) (hne : self ≠ peer)
include hs hne

theorem Adjacency.inRange (hD : self.dimensions < wordBits) : InRange self peer := by
  obtain ⟨a, ha, hdesc⟩ := exists_compute hs hne hD
  refine ⟨a, ha, by rw [checkedCompute_eq, ha, mapError_ok], fun scan hscan bound => ?_⟩
  have hscans := hdesc.scans scan hscan
  refine scan.checkedMatchingLevel_eq hs hscans.dimension.1 ?_ bound
  have hlt := hdesc.shared_lt
  rw [hscans.maxLevel]
  omega

theorem Standing.exists_compute (hD : c.usesRoutingTables = true → self.dimensions < wordBits) :
    ∃ standing, compute c self peer = .ok standing := by
  rw [compute, c.metric.measure_of_shape hs, ok_bind]
  split
  · rename_i huse
    obtain ⟨cells, hcells, -⟩ := Cells.exists_compute hs hne (hD huse)
    rw [hcells]
    exact ⟨_, rfl⟩
  · exact ⟨_, rfl⟩

end

/-! ## Totality -/

theorem Reachable.dimensions_eq (h : Reachable key c self s) : self.dimensions = c.dimensions :=
  (Config.shape_ok h.config_valid.2).1

theorem Reachable.dimensions_lt (h : Reachable key c self s) (huse : c.usesRoutingTables = true) :
    self.dimensions < wordBits := by
  rw [h.dimensions_eq]
  exact Nat.lt_succ_of_le ((Config.dimensions_le_of_validate h.config_valid.1).1 huse)

/-- A peer of the configured shape is offered to slots that exist, and the rule
    of the table decides. -/
theorem Reachable.computes (h : Reachable key c self s) {kind : TableKind}
    {candidate : Candidate} {i : SlotIndex} (hself : candidate.self = self)
    (hshape : candidate.node.id.shape = self.shape)
    (hcell : c.HasCell self candidate.node.id i kind) :
    (s.tables.get kind).InGrid i ∧ ∀ policy : Policy, policy.rule = c.ruleOf kind →
      policy.Computes ((s.tables.get kind).offerOf candidate i) := by
  have hinv := h.invariant
  refine ⟨(hinv.grid kind).inGrid_iff.2 (inGrid_ofConfig h.config_valid.2 hcell),
    fun policy hrule => Policy.computes h.config_valid.1 hrule ?_ ?_ ?_ fun e he => ?_⟩
  · rintro rfl
    exact hcell.1
  · change candidate.self.dimensions = c.dimensions
    rw [hself, h.dimensions_eq]
  · change candidate.node.id.shape = candidate.self.shape
    rw [hself, hshape]
  · change e.node.id.shape = candidate.self.shape
    rw [hself]
    exact (hinv.inPlace kind e (SubTable.mem_entries.2 ⟨i, he⟩)).shape

/-- **Placement does not fail.**  In every state that a node reaches a peer has
    the wrong shape if and only if it is another one of another shape, and it is
    placed if it passes the gate.  Then its place exists and is computed in
    range.  The slots that it is offered to are in the grid, and the policies
    that the configuration has for the tables compute all that they need.  Masks
    are cut in range. -/
theorem Reachable.placement_total (h : Reachable key c self s) (id : Identifier)
    (address : Address) (time : Timestamp) :
    ((s.engine.notify (.keyed key id address) time).2 = .skipped .shapeMismatch ↔
      key id ≠ key self ∧ id.shape ≠ self.shape) ∧
    ((∃ report, (s.engine.notify (.keyed key id address) time).2 = .processed report) ↔
      s.engine.Passes (.keyed key id address) time) ∧
    (s.engine.Passes (.keyed key id address) time →
      (∃ standing, Standing.compute c self id = .ok standing) ∧
      (c.usesRoutingTables = true → Adjacency.InRange self id)) ∧
    (s.engine.Follows ∧ ∀ report,
      (s.engine.notify (.keyed key id address) time).2 = .processed report → ∀ kind,
        let before := (s.tables.updateAddress (.keyed key id address)).1.get kind
        let after := (s.engine.notify (.keyed key id address) time).1.tables.get kind
        let candidate : Candidate := ⟨.keyed key id address, self, report.distance, time⟩
        (report.get kind).MadeBy (c.ruleOf kind) candidate before after ∧
        ∀ i a, report.get kind = .considered i a → before.InGrid i ∧
          ∀ policy : Policy, policy.rule = c.ruleOf kind →
            policy.Computes (before.offerOf candidate i)) ∧
    ∀ mask start, Identifier.checkedWindow mask start = .ok (mask.window start) := by
  have hinv := h.invariant
  have hhash : s.engine.self.hash = key self := by rw [hinv.sane.hash, hinv.self_id]
  have hne : key id ≠ key self → self ≠ id := fun hk heq => hk (by rw [heq])
  have hstanding : key id ≠ key self → id.shape = self.shape →
      ∃ standing, Standing.compute c self id = .ok standing := fun hk hs =>
    Standing.exists_compute hs.symm (hne hk) h.dimensions_lt
  have hgate := s.engine.notify_gate (.keyed key id address) time
    (by rw [hhash, hinv.config_eq, hinv.self_id]; exact hstanding)
  rw [hhash, hinv.self_id] at hgate
  refine ⟨hgate.1, hgate.2, fun hp => ?_, ⟨h.follows, fun report hreport kind => ?_⟩,
    Identifier.checkedWindow_eq⟩
  · have hk := hp.other
    have hs := hp.shape
    rw [hhash] at hk
    rw [hinv.self_id] at hs
    exact ⟨hstanding hk hs, fun huse => Adjacency.inRange hs.symm (hne hk) (h.dimensions_lt huse)⟩
  · have hmade := (Engine.notify_follows h.follows (.keyed key id address) time).2 report hreport kind
    rw [hinv.config_eq, hinv.self_id] at hmade
    refine ⟨hmade, fun i a hi => ?_⟩
    have hs : id.shape = self.shape := by
      have hp := (hgate.2.1 ⟨report, hreport⟩).shape
      rwa [hinv.self_id] at hp
    -- the node with the address of the peer up to date
    have hmoved := h.handle (.updateAddress id address)
    obtain ⟨-, -, standing, hcompute, -, hplaces⟩ := Engine.notify_processed hreport
    obtain ⟨-, -, hcells⟩ := Standing.compute_ok hcompute
    have hcell := hplaces.hasCell hinv.sane.secure hcells hi
    refine hmoved.computes rfl hs ?_
    rw [← hinv.config_eq, ← hinv.self_id]
    exact hcell

theorem placement_total_secondPeer :
    ∃ s, Reachable Identifier.hash { Config.small with useSecure := true } (.zero (.mk 2 4)) s ∧
      s.tables.totalEntries = 3 ∧
      (∃ report, (s.engine.notify (.keyed Identifier.hash (.ofFn (.mk 2 4) (· == 5))
        "10.0.0.3:7000") (.ofMillis 0)).2 = .processed report) ∧
      Adjacency.InRange (.zero (.mk 2 4)) (.ofFn (.mk 2 4) (· == 5)) := by
  have hstart : Reachable Identifier.hash { Config.small with useSecure := true }
      (.zero (.mk 2 4)) _ := Reachable.start rfl rfl "10.0.0.1:7000" (.ofSeed 7) (.ofMillis 0)
  have hs := hstart.handle (.notify (.ofFn (.mk 2 4) (· == 4)) "10.0.0.2:7000")
  obtain ⟨-, hgate, hplace, -, -⟩ :=
    hs.placement_total (.ofFn (.mk 2 4) (· == 5)) "10.0.0.3:7000" (.ofMillis 0)
  have hp := hgate.2 (by constructor <;> decide +kernel)
  exact ⟨_, hs, by decide +kernel, hp, (hplace (hgate.1 hp)).2 rfl⟩

end CubeRouting
