/-
  Notifications that are repeated.

  A node that does not remember recent peers places a peer each time that it is
  seen.  Nothing comes of this after the first time.

  * `Reachable.nsPolicy_isSteady`, `Reachable.rtPolicy_isPlain`: the policies in
    use decline again what they declined;
  * `Reachable.passes_again`: a peer that was placed passes the gate again;
  * `Reachable.notify_idempotent`: the second report, and the tables after it.
-/
import CubeRouting.Proofs.Placement.Repetition
import CubeRouting.Proofs.Run.Addresses
import CubeRouting.Proofs.Run.Skipped

namespace CubeRouting

variable {key : Identifier → UInt64} {c : Config} {self : Identifier} {s : Service}

/-! ## The policies -/

/-- **The policy of the neighborhood set is steady.** -/
theorem Reachable.nsPolicy_isSteady (h : Reachable key c self s) :
    s.engine.nsPolicy.IsSteady :=
  h.induction_engine (P := fun e => e.nsPolicy.IsSteady) (fun _ _ => Policy.isSteady_ofNs c)
    (fun _ _ he => he) fun _ peer time he => Engine.kept_ns_notify (fun _ o hp => hp.decide o) he
      peer time

/-- **A plain policy of RT1 and RT2 stays in use**, as the configuration has it. -/
theorem Reachable.rtPolicy_eq (h : Reachable key c self s)
    (hc : c.rtPolicy = .simple ∨ c.rtPolicy = .distance) :
    s.engine.rtPolicy = Policy.ofRt c := by
  have hrule := h.follows.rt
  rw [h.invariant.config_eq, Config.ruleOf] at hrule
  rw [Policy.ofRt] at hrule ⊢
  rcases hc with hc | hc <;> rw [hc] at hrule ⊢
  · exact Policy.eq_of_rule hrule (by simp) (by simp)
  · exact Policy.eq_of_rule hrule (by simp) (by simp)

theorem Reachable.rtPolicy_isPlain (h : Reachable key c self s)
    (hc : c.rtPolicy = .simple ∨ c.rtPolicy = .distance) : s.engine.rtPolicy.IsPlain := by
  rw [h.rtPolicy_eq hc, Policy.ofRt]
  rcases hc with hc | hc <;> rw [hc]
  · exact Or.inl rfl
  · exact Or.inr rfl

/-- No memory of recent peers is kept without a retention time. -/
theorem Reachable.recent_eq_none (h : Reachable key c self s) (hretention : c.retention = 0) :
    s.engine.recent = none := by
  refine h.induction_engine (P := fun e => e.recent = none) (fun node entropy => ?_)
    (fun _ _ he => he) fun e peer time he => Engine.recent_notify_eq_none he peer time
  exact if_neg (by rw [hretention]; exact Nat.lt_irrefl 0)

/-! ## The gate -/

section
variable {peer : NodeRecord}

/-- An address that is up to date is not stored again. -/
theorem RoutingTable.updateAddress_eq_self {t : RoutingTable}
    (hw : ∀ kind, (t.get kind).WellFormed)
    (h : ∀ kind, ∀ e ∈ (t.get kind).entries, e.hash = peer.hash → e.node = peer) :
    (t.updateAddress peer).1 = t := by
  refine ext_get fun kind => ?_
  rw [updateAddress, get_updateEntries]
  split
  · rename_i e' he'
    obtain ⟨e, he, hmoved⟩ := Option.bind_eq_some_iff.1 he'
    obtain ⟨hmem, hhash⟩ := (hw kind).get?_eq_some_iff.1 he
    rw [h kind e hmem hhash, if_neg (fun hboth => hboth.2 rfl)] at hmoved
    cases hmoved
  · rfl

/-- What no stored entry of a hash has. -/
theorem RoutingTable.any_entriesOf_eq_false {t : RoutingTable}
    (hw : ∀ kind, (t.get kind).WellFormed) {hash : UInt64} {p : Entry → Bool}
    (h : ∀ kind, ∀ e ∈ (t.get kind).entries, e.hash = hash → p e = false) :
    (t.entriesOf hash).any p = false := by
  rw [List.any_eq_false]
  intro e he
  obtain ⟨kind, hmem, hhash⟩ := (Engine.mem_entriesOf hw).1 he
  rw [h kind e hmem hhash]
  exact Bool.false_ne_true

/-- A peer that is stored as it was seen is not in conflict. -/
theorem Engine.conflict?_eq_none {e : Engine} (hw : ∀ kind, (e.tables.get kind).WellFormed)
    (h : ∀ kind, ∀ x ∈ (e.tables.get kind).entries, x.hash = peer.hash → x.node = peer) :
    e.conflict? peer = none := by
  have hid : ((e.tables.entriesOf peer.hash).any fun x => x.node.id ≠ peer.id) = false :=
    RoutingTable.any_entriesOf_eq_false hw fun kind x hx hhash => by simp [h kind x hx hhash]
  have haddress : ((e.tables.entriesOf peer.hash).any fun x => x.node.address ≠ peer.address) =
      false :=
    RoutingTable.any_entriesOf_eq_false hw fun kind x hx hhash => by simp [h kind x hx hhash]
  rw [conflict?, hid, haddress, if_neg Bool.false_ne_true]
  rfl

/-- A peer that passes the gate again is placed as before. -/
theorem Engine.notify_again {e : Engine} {time again : Timestamp} {report : Report}
    (hw : ∀ kind, (e.tables.get kind).WellFormed) (hns : e.nsPolicy.IsSteady)
    (hrt : e.rtPolicy.IsPlain) (hsecure : e.securePolicy = none)
    (hp : (e.notify peer time).2 = .processed report)
    (hupdate : ((e.notify peer time).1.tables.updateAddress peer).1 =
      (e.notify peer time).1.tables)
    (hpasses : (e.notify peer time).1.Passes peer again) :
    ((e.notify peer time).1.notify peer again).2 = .processed report.settled ∧
      ((e.notify peer time).1.notify peer again).1.tables = (e.notify peer time).1.tables := by
  have hkeeps := e.keeps_notify peer time
  obtain ⟨reason, hskip, -⟩ | ⟨-, -, -, standing, e₀, hstanding, he₀, hout, hsame⟩ :=
    e.notify_cases peer time
  · rw [hskip] at hp
    cases hp
  rw [hout] at hp
  cases hp
  generalize (e.notify peer time).1 = e₁ at hupdate hpasses hkeeps hsame ⊢
  rw [← hkeeps.config, ← hkeeps.self] at hstanding
  obtain ⟨report', hprocessed⟩ := (e₁.notify_gate peer again
    fun _ _ => ⟨standing, hstanding⟩).2.2 hpasses
  obtain ⟨reason, hskip, -⟩ | ⟨-, -, -, standing', e₀', hstanding', he₀', hout', hsame'⟩ :=
    e₁.notify_cases peer again
  · rw [hskip] at hprocessed
    cases hprocessed
  obtain rfl : standing' = standing := Except.ok.inj (hstanding'.symm.trans hstanding)
  rw [hupdate] at he₀'
  have hw₀ : ∀ kind, (e₀.tables.get kind).WellFormed := by
    intro kind
    rw [he₀.tables]
    exact (hw kind).edits (RoutingTable.edits_updateAddress peer (hw kind))
  obtain ⟨htables, hreport⟩ := Engine.place_again hw₀ (by rwa [he₀.nsPolicy])
    (by rwa [he₀.rtPolicy]) (by rwa [he₀.securePolicy]) peer standing' time
    (he₀'.trans hsame) again
  rw [hout', hreport, hsame'.tables, htables]
  exact ⟨rfl, he₀'.tables⟩

end

section
variable {id : Identifier} {address : Address} {time : Timestamp} {report : Report}
  (h : Reachable key c self s)
  (hp : (s.engine.notify (.keyed key id address) time).2 = .processed report)
include h hp

/-- A peer that was placed passes the gate again. -/
theorem Reachable.passes_again (hretention : c.retention = 0) (again : Timestamp) :
    (s.engine.notify (.keyed key id address) time).1.Passes (.keyed key id address) again := by
  have hafter : Reachable key c self ⟨(s.engine.notify (.keyed key id address) time).1, time⟩ :=
    (h.handle (.setTime time)).handle (.notify id address)
  have hkeeps := s.engine.keeps_notify (.keyed key id address) time
  have hnone := hafter.recent_eq_none hretention
  obtain ⟨reason, hskip, -⟩ | ⟨hself, hshape, -⟩ :=
    s.engine.notify_cases (.keyed key id address) time
  · rw [hskip] at hp
    cases hp
  constructor
  case other => rwa [hkeeps.self]
  case shape => rwa [hkeeps.self]
  case free =>
    rw [show (s.engine.notify (.keyed key id address) time).1.inFlight = .empty from
      hafter.inFlight_eq]
    rfl
  case notRecent =>
    change (s.engine.notify (.keyed key id address) time).1.recent = none at hnone
    rw [Engine.checkRecent, hnone]
  case noConflict =>
    exact Engine.conflict?_eq_none hafter.invariant.wellFormed
      fun _ _ he => h.node_eq_of_processed hp he

/-- **Notifications are idempotent.**  Without secure tables and a retention time
    and with a plain policy of RT1 and RT2, a peer that was placed is placed again
    at whatever time it is seen next, and all tables stay as they are.  It is
    present in the tables that it was stored in; in the others the same comes of
    it as before.  A neighborhood set that is spread over buckets declines it
    again in whatever order these come. -/
theorem Reachable.notify_idempotent (hsecure : c.useSecure = false) (hretention : c.retention = 0)
    (hpolicy : c.rtPolicy = .simple ∨ c.rtPolicy = .distance) (again : Timestamp) :
    let e := (s.engine.notify (.keyed key id address) time).1
    (∃ report', (e.notify (.keyed key id address) again).2 = .processed report' ∧
      (e.notify (.keyed key id address) again).1.tables = e.tables ∧
      report'.hash = report.hash ∧ report'.distance = report.distance ∧
      ∀ kind, report'.get kind =
        if (report.get kind).holdsPeer then .alreadyPresent else report.get kind) ∧
    ∀ p i order, Policy.ofNs c = .balanced p → report.ns = .considered i .declined →
      (e.tables.get .ns).receive p i
        ⟨⟨.keyed key id address, self, report.distance, again⟩, order⟩ =
          (e.tables.get .ns, .declined) := by
  have hafter : Reachable key c self ⟨(s.engine.notify (.keyed key id address) time).1, time⟩ :=
    (h.handle (.setTime time)).handle (.notify id address)
  have hno : s.engine.securePolicy = none := by
    rw [← Option.isNone_iff_eq_none, ← Option.not_isSome, h.invariant.sane.secure,
      h.invariant.config_eq, hsecure]
    rfl
  have hupdate : ((s.engine.notify (.keyed key id address) time).1.tables.updateAddress
      (.keyed key id address)).1 = (s.engine.notify (.keyed key id address) time).1.tables :=
    RoutingTable.updateAddress_eq_self hafter.invariant.wellFormed
      fun _ _ he => h.node_eq_of_processed hp he
  obtain ⟨hout, htables⟩ := Engine.notify_again h.invariant.wellFormed h.nsPolicy_isSteady
    (h.rtPolicy_isPlain hpolicy) hno hp hupdate (h.passes_again hp hretention again)
  refine ⟨⟨report.settled, hout, htables, rfl, rfl, report.get_settled⟩, ?_⟩
  intro p i order hbalanced hdeclined
  obtain ⟨-, -, standing, -, hdistance, hplaces⟩ := Engine.notify_processed hp
  rw [hdistance, ← h.invariant.self_id]
  exact hplaces.receive_again (h.nsPolicy_balanced hbalanced) hdeclined order again

end

/-- A peer that the neighborhood set declines and RT1 admits. -/
theorem notify_idempotent_declinedPeer :
    let c := { Config.small with nsSize := 1, nsPolicy := .balancedOrthants }
    let self : Identifier := .zero (.mk 2 4)
    let peer : NodeRecord := .keyed Identifier.hash (.ofFn (.mk 2 4) (· == 5)) "10.0.0.3:7000"
    let report : Report := ⟨peer.hash, 2, .considered ⟨0, 0⟩ .declined,
      .considered ⟨1, 2⟩ .admitted, .notAdjacent, .disabled, .disabled⟩
    ∃ s, Reachable Identifier.hash c self s ∧
      (s.engine.notify peer (.ofMillis 5)).2 = .processed report ∧
      let e := (s.engine.notify peer (.ofMillis 5)).1
      (∃ report', (e.notify peer (.ofMillis 9)).2 = .processed report' ∧
        (e.notify peer (.ofMillis 9)).1.tables = e.tables ∧
        report'.ns = .considered ⟨0, 0⟩ .declined ∧ report'.rt1 = .alreadyPresent) ∧
      ∀ order, (e.tables.get .ns).receive .orthants ⟨0, 0⟩
        ⟨⟨peer, self, 2, .ofMillis 9⟩, order⟩ = (e.tables.get .ns, .declined) := by
  intro c self peer report
  have hstart : Reachable Identifier.hash
      { Config.small with nsSize := 1, nsPolicy := .balancedOrthants } (.zero (.mk 2 4)) _ :=
    Reachable.start rfl rfl "10.0.0.1:7000" (.ofSeed 7) (.ofMillis 0)
  obtain ⟨s, hs, hprocessed⟩ : ∃ s, Reachable Identifier.hash c self s ∧
      (s.engine.notify peer (.ofMillis 5)).2 = .processed report :=
    ⟨_, hstart.handle (.notify (.ofFn (.mk 2 4) (· == 4)) "10.0.0.2:7000"), by decide +kernel⟩
  obtain ⟨⟨report', hout, htables, -, -, hreport⟩, horder⟩ :=
    hs.notify_idempotent hprocessed rfl rfl (Or.inl rfl) (.ofMillis 9)
  exact ⟨s, hs, hprocessed, ⟨report', hout, htables, hreport .ns, hreport .rt1⟩,
    fun order => horder .orthants ⟨0, 0⟩ order rfl rfl⟩

end CubeRouting
