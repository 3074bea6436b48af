/-
  Peers that come back after a sweep.

  A sweep takes dead peers out of the tables and leaves the policies alone.  A
  liveness policy remembers the scores of the members that it replaced, and of
  no others.

  * `Reachable.nsPolicy_isLiveness`, `Reachable.rtPolicy_isLiveness`: liveness
    policies stay in use;
  * `Reachable.readmitted_score`: a peer that a sweep took out starts with the
    score that the policy had remembered before, or with the initial one;
  * `not_readmitted_keeps_score`: and not with the score that it had.
-/
import CubeRouting.Proofs.Placement.Liveness
import CubeRouting.Proofs.Run.Reachable

namespace CubeRouting

variable {key : Identifier → UInt64} {c : Config} {self : Identifier} {s : Service}

/-! ## The policies in use -/

theorem Policy.isLiveness_start (t : LivenessTunables) :
    (Policy.liveness t (.empty t)).IsLiveness t := ⟨_, rfl, rfl⟩

/-- **A liveness policy stays in use** for the neighborhood set. -/
theorem Reachable.nsPolicy_isLiveness (h : Reachable key c self s)
    (hns : c.nsPolicy = .liveness) : s.engine.nsPolicy.IsLiveness c.liveness := by
  refine h.induction_engine (P := fun e => e.nsPolicy.IsLiveness c.liveness) (fun _ _ => ?_)
    (fun _ _ he => he) fun _ peer time he => Engine.kept_ns_notify (fun _ o hp => hp.decide o) he
      peer time
  rw [Engine.fresh, Policy.ofNs, hns]
  exact Policy.isLiveness_start c.liveness

/-- **A liveness policy stays in use** for RT1 and RT2. -/
theorem Reachable.rtPolicy_isLiveness (h : Reachable key c self s)
    (hrt : c.rtPolicy = .liveness) : s.engine.rtPolicy.IsLiveness c.liveness := by
  refine h.induction_engine (P := fun e => e.rtPolicy.IsLiveness c.liveness) (fun _ _ => ?_)
    (fun _ _ he => he) fun _ peer time he => Engine.kept_rt_notify (fun _ o hp => hp.decide o) he
      peer time
  rw [Engine.fresh, Policy.ofRt, hrt]
  exact Policy.isLiveness_start c.liveness

theorem Reachable.policyOf_isLiveness (h : Reachable key c self s) (hns : c.nsPolicy = .liveness)
    (hrt : c.rtPolicy = .liveness) {kind : TableKind} (hkind : kind ∈ [TableKind.ns, .rt1, .rt2]) :
    ∃ memory, s.engine.policyOf kind = some (.liveness c.liveness memory) ∧
      memory.capacity = max c.liveness.memory 1 := by
  obtain ⟨memory, hmemory, hcapacity⟩ := h.nsPolicy_isLiveness hns
  obtain ⟨memory', hmemory', hcapacity'⟩ := h.rtPolicy_isLiveness hrt
  rcases List.mem_cons.1 hkind with rfl | hkind
  · exact ⟨memory, congrArg some hmemory, hcapacity⟩
  · refine ⟨memory', ?_, hcapacity'⟩
    rcases List.mem_pair.1 hkind with rfl | rfl <;> exact congrArg some hmemory'

/-! ## Sweeps -/

/-- A sweep takes out the peers whose scores are at most the threshold. -/
theorem Invariant.hash_ne_of_evictDead (h : Invariant key c self s) {threshold : Binary64}
    {kind : TableKind} {e : Entry} (he : e ∈ (s.tables.get kind).entries)
    (hdead : (e.liveness c.liveness).le threshold = true) :
    ∀ x ∈ ((s.evictDead threshold).1.tables.get kind).entries, x.hash ≠ e.hash := by
  intro x hx hh
  change x ∈ (((s.tables.removeWhere _).1).get kind).entries at hx
  rw [RoutingTable.get_removeWhere, (h.wellFormed kind).mem_removeWhere, h.config_eq] at hx
  obtain ⟨i, hi⟩ := SubTable.mem_entries.1 hx.1
  obtain ⟨j, hj⟩ := SubTable.mem_entries.1 he
  rw [(h.wellFormed kind).eq_of_hash hi hj hh, hdead] at hx
  cases hx.2

/-- A peer that is new to a table after a notification starts there with the
    score that the policy of the table gives it. -/
theorem Reachable.liveness_of_notify (h : Reachable key c self s) {kind : TableKind}
    (hkind : kind ∈ [TableKind.ns, .rt1, .rt2]) {memory : LivenessMemory}
    (hp : s.engine.policyOf kind = some (.liveness c.liveness memory))
    (hroom : kind = .rt2 → 1 < memory.capacity) {id : Identifier} {address : Address}
    (hno : ∀ x ∈ (s.tables.get kind).entries, x.hash ≠ key id) {e : Entry}
    (he : e ∈ ((s.notify (.keyed key id address)).1.tables.get kind).entries)
    (hh : e.hash = key id) : e.liveness c.liveness = memory.startingScore c.liveness (key id) := by
  obtain ⟨reason, -, hsame⟩ | ⟨-, -, -, standing, e₀, -, he₀, -, hsame⟩ :=
    s.engine.notify_cases (.keyed key id address) s.now
  · change e ∈ ((s.engine.notify (.keyed key id address) s.now).1.tables.get kind).entries at he
    rw [hsame.tables] at he
    exact absurd hh (hno e he)
  · change e ∈ ((s.engine.notify (.keyed key id address) s.now).1.tables.get kind).entries at he
    have hmoved := (h.handle (.updateAddress id address)).invariant.wellFormed
    have hp₀ : e₀.policyOf kind = some (.liveness c.liveness memory) := by
      rw [← hp]
      cases kind with
      | ns => exact congrArg some he₀.nsPolicy
      | rt1 | rt2 => exact congrArg some he₀.rtPolicy
      | secRt1 | secRt2 => exact he₀.securePolicy
    rw [hsame.tables] at he
    refine (Engine.liveness_of_place (fun kind => ?_) hkind hp₀ hroom he).resolve_left
      fun hold => ?_
    · rw [he₀.tables]
      exact hmoved kind
    · rw [he₀.tables] at hold
      have hedits := RoutingTable.edits_updateAddress (.keyed key id address)
        (h.invariant.wellFormed kind)
      obtain ⟨x, hx, hc⟩ := hedits.entries_continue hold
      exact hno x hx (hc.hash.symm.trans hh)

/-- **The score of a peer that comes back after a sweep** is the one that the
    policy of the table had remembered for it before the sweep, which takes
    nothing down; if there was none, it is the initial one. -/
theorem Reachable.readmitted_score (h : Reachable key c self s) (hns : c.nsPolicy = .liveness)
    (hrt : c.rtPolicy = .liveness) {kind : TableKind} (hkind : kind ∈ [TableKind.ns, .rt1, .rt2])
    (hroom : kind = .rt2 → 1 < c.liveness.memory) {threshold : Binary64} {e : Entry}
    (he : e ∈ (s.tables.get kind).entries)
    (hdead : (e.liveness c.liveness).le threshold = true) :
    (∀ x ∈ ((s.evictDead threshold).1.tables.get kind).entries, x.hash ≠ e.hash) ∧
    ∃ memory, s.engine.policyOf kind = some (.liveness c.liveness memory) ∧
      ∀ address, ∀ x ∈ (((s.evictDead threshold).1.notify
          (.keyed key e.node.id address)).1.tables.get kind).entries, x.hash = e.hash →
        x.liveness c.liveness = memory.startingScore c.liveness e.hash := by
  have hgone := h.invariant.hash_ne_of_evictDead he hdead
  have hkey : e.hash = key e.node.id := (h.invariant.inPlace kind e he).hash
  obtain ⟨memory, hp, hcapacity⟩ := h.policyOf_isLiveness hns hrt hkind
  refine ⟨hgone, memory, hp, fun address x hx hh => ?_⟩
  rw [hkey] at hgone hh ⊢
  refine (h.handle (.evictDead threshold)).liveness_of_notify hkind hp (fun hk => ?_) hgone hx hh
  rw [hcapacity]
  exact lt_max_of_lt_left (hroom hk)

/-- A peer that missed a pong is swept out and starts afresh. -/
theorem readmitted_score_missedPong : ∃ (s : Service) (e x : Entry) (memory : LivenessMemory),
    Reachable Identifier.hash { Config.small with nsPolicy := .liveness, rtPolicy := .liveness }
      (.zero (.mk 2 4)) s ∧
    e ∈ (s.tables.get .rt1).entries ∧ e.liveness .usual = 0.25 ∧
    x ∈ (((s.evictDead 0.3).1.notify (.of e.node.id "10.0.0.2:7000")).1.tables.get .rt1).entries ∧
    s.engine.policyOf .rt1 = some (.liveness .usual memory) ∧
    x.liveness .usual = memory.startingScore .usual e.hash := by
  have hstart : Reachable Identifier.hash
      { Config.small with nsPolicy := .liveness, rtPolicy := .liveness } (.zero (.mk 2 4)) _ :=
    Reachable.start rfl rfl "10.0.0.1:7000" (.ofSeed 7) (.ofMillis 0)
  let id : Identifier := .ofFn (.mk 2 4) (· == 4)
  have hs := (hstart.handle (.notify id "10.0.0.2:7000")).handle (.recordMissedPong id.hash)
  let e : Entry := ((Entry.fresh (.of id "10.0.0.2:7000") 2 (.ofMillis 0) ⟨.rt1, 1, 1⟩).setLiveness
    0.5).setLiveness 0.25
  let x : Entry :=
    (Entry.fresh (.of id "10.0.0.2:7000") 2 (.ofMillis 0) ⟨.rt1, 1, 1⟩).setLiveness 0.5
  have hkind : TableKind.rt1 ∈ [TableKind.ns, .rt1, .rt2] := by decide
  have hdead : (e.liveness .usual).le 0.3 = true := by decide +kernel
  obtain ⟨-, memory, hp, hscore⟩ := hs.readmitted_score rfl rfl hkind nofun
    (by decide +kernel) hdead
  exact ⟨_, e, x, memory, hs, by decide +kernel, by decide +kernel, by decide +kernel, hp,
    hscore "10.0.0.2:7000" x (by decide +kernel) (by decide +kernel)⟩

/-- It does not keep the score that it was swept out with, however many scores
    there is room for. -/
theorem not_readmitted_keeps_score : ¬∀ (c : Config) (self : Identifier) (s : Service)
    (threshold : Binary64) (address : Address), Reachable Identifier.hash c self s →
    c.nsPolicy = .liveness → c.rtPolicy = .liveness →
    (s.evictDead threshold).2.length ≤ c.liveness.memory →
    ∀ kind ∈ [TableKind.ns, .rt1, .rt2], ∀ e ∈ (s.tables.get kind).entries,
      (e.liveness c.liveness).le threshold = true →
      ∀ x ∈ (((s.evictDead threshold).1.notify (.of e.node.id address)).1.tables.get kind).entries,
        x.hash = e.hash → x.liveness c.liveness = e.liveness c.liveness := by
  intro hall
  have hstart : Reachable Identifier.hash
      { Config.small with nsPolicy := .liveness, rtPolicy := .liveness } (.zero (.mk 2 4)) _ :=
    Reachable.start rfl rfl "10.0.0.1:7000" (.ofSeed 7) (.ofMillis 0)
  let id : Identifier := .ofFn (.mk 2 4) (· == 4)
  have hs := (hstart.handle (.notify id "10.0.0.2:7000")).handle (.recordMissedPong id.hash)
  have hkeeps := hall _ _ _ 0.3 "10.0.0.2:7000" hs rfl rfl (by decide +kernel) .ns (by decide)
  revert hkeeps
  decide +kernel

end CubeRouting
