/-
  Notifications without effect.

  A notification claims its peer and stores its address before the peer is
  placed.  A peer that is skipped leaves no trace of this: only the memory of
  recent peers and the count of skipped peers may change.

  * `process_eq_eager`: the addresses may be stored first, since placement does
    not fail after that;
  * `Reachable.inFlight_eq`: no peer is claimed between two requests;
  * `Reachable.skipped_keeps`: what a notification leaves as it was.
-/
import CubeRouting.Proofs.Run.Totality

namespace CubeRouting

variable {key : Identifier → UInt64} {c : Config} {self : Identifier} {s : Service}

namespace Engine

variable {e : Engine} {peer : NodeRecord} {time : Timestamp}

/-! ## The order of the effects -/

/-- A claimed peer goes through the rest of the gate, which stores its address,
    and only then is its place computed. -/
def processEager (e : Engine) (peer : NodeRecord) (time : Timestamp) : Engine × Outcome :=
  let (recent, e) := e.checkRecent peer.hash time
  if recent then e.skip .recentlyProcessed
  else
    match e.conflict? peer with
    | some reason => e.skip reason
    | none =>
      let e := { e with tables := (e.tables.updateAddress peer).1 }
      match Standing.compute e.config e.self.id peer.id with
      | .error _ => e.skip .shapeMismatch
      | .ok standing =>
        let (e, report) := e.place peer standing time
        (e.recordRecent peer.hash time).finish (.processed report)

/-- **An address is not stored in vain**: where peers have a place, storing the
    address first comes to the same. -/
theorem process_eq_eager
    (hs : ∃ standing, Standing.compute e.config e.self.id peer.id = .ok standing) :
    e.process peer time = e.processEager peer time := by
  obtain ⟨standing, hstanding⟩ := hs
  unfold process processEager
  rw [e.checkRecent_eq]
  dsimp only
  rw [hstanding]
  split
  · rfl
  cases conflict? _ peer <;> rfl

/-! ## Claims -/

/-- A peer that is not claimed is not refused as being placed. -/
theorem notify_ne_alreadyInProgress (hfree : e.inFlight.contains peer.hash = false) :
    (e.notify peer time).2 ≠ .skipped .alreadyInProgress := by
  by_cases hself : peer.hash = e.self.hash
  · rw [notify, if_pos hself]
    nofun
  by_cases hshape : peer.id.shape = e.self.id.shape
  · rw [Ne, notify_claimed_iff hself hshape, hfree]
    exact Bool.false_ne_true
  · rw [notify, if_neg hself, if_pos hshape]
    nofun

theorem notifyAll_ne_alreadyInProgress (hfree : e.inFlight = .empty) (time : Timestamp)
    (peers : List NodeRecord) : .skipped .alreadyInProgress ∉ (e.notifyAll time peers).2 := by
  induction peers generalizing e with
  | nil => exact List.not_mem_nil
  | cons peer peers ih =>
    have hone : (e.notify peer time).2 ≠ .skipped .alreadyInProgress :=
      notify_ne_alreadyInProgress (by rw [hfree]; rfl)
    have hrest := ih ((e.notify_ends peer time).inFlight.trans hfree)
    exact fun h => (List.mem_cons.1 h).elim (fun h => hone h.symm) hrest

end Engine

/-- **No peer is claimed between two requests.** -/
theorem Reachable.inFlight_eq (h : Reachable key c self s) : s.engine.inFlight = .empty :=
  h.induction_engine (P := fun e => e.inFlight = .empty) (fun _ _ => rfl) (fun _ _ he => he)
    fun e peer time he => (e.notify_ends peer time).inFlight.trans he

/-! ## Skipped peers -/

/-- **A skipped notification has no effect.**  In every state that a node
    reaches, with any peers claimed: a peer that is skipped is looked up in the
    memory of recent peers at most and counted as skipped.  Every notification
    leaves the claims as they were.  A peer that is not the node and has its
    shape is refused as being placed if and only if it is claimed; it has a place
    that is computed in range, so no skip comes after its address is stored.
    Without other claims no request refuses a peer as being placed. -/
theorem Reachable.skipped_keeps (h : Reachable key c self s) (claims : InFlight)
    (id : Identifier) (address : Address) (time : Timestamp) :
    let e : Engine := { s.engine with inFlight := claims }
    let peer : NodeRecord := .keyed key id address
    (∀ reason, (e.notify peer time).2 = .skipped reason →
      ∃ recent, (recent = e.recent ∨ recent = (e.checkRecent peer.hash time).2.recent) ∧
        (e.notify peer time).1 = { e with
          recent := recent
          counters := { e.counters with skipped := e.counters.skipped + 1 } }) ∧
    (e.notify peer time).1.inFlight = claims ∧
    (key id ≠ key self → id.shape = self.shape →
      ((e.notify peer time).2 = .skipped .alreadyInProgress ↔ claims.contains (key id) = true) ∧
      (∃ standing, Standing.compute c self id = .ok standing) ∧
      (c.usesRoutingTables = true → Adjacency.InRange self id) ∧
      ∀ claimed, { e with inFlight := claimed }.process peer time =
        { e with inFlight := claimed }.processEager peer time) ∧
    ∀ r outcomes, (s.handle key r).2 = .outcomes outcomes →
      .skipped .alreadyInProgress ∉ outcomes := by
  intro e peer
  have hinv := h.invariant
  have hhash : s.engine.self.hash = key self := by rw [hinv.sane.hash, hinv.self_id]
  refine ⟨fun reason hskip => Engine.notify_skipped hskip, (e.notify_ends peer time).inFlight,
    fun hkey hshape => ?_, fun r outcomes hr => ?_⟩
  · have hne : self ≠ id := fun heq => hkey (by rw [heq])
    obtain ⟨standing, hstanding⟩ := Standing.exists_compute hshape.symm hne h.dimensions_lt
    refine ⟨?_, ⟨standing, hstanding⟩, fun huse =>
      Adjacency.inRange hshape.symm hne (h.dimensions_lt huse), fun claimed => ?_⟩
    · refine Engine.notify_claimed_iff ?_ ?_
      · change key id ≠ s.engine.self.hash
        rwa [hhash]
      · change id.shape = s.engine.self.id.shape
        rwa [hinv.self_id]
    · refine Engine.process_eq_eager ⟨standing, ?_⟩
      change Standing.compute s.engine.config s.engine.self.id id = _
      rw [hinv.config_eq, hinv.self_id, hstanding]
  · cases r with
    | notify id address =>
      cases hr
      rw [List.mem_singleton]
      refine fun hout => Engine.notify_ne_alreadyInProgress ?_ hout.symm
      rw [h.inFlight_eq]
      rfl
    | recoveryReply peers =>
      cases hr
      exact Engine.notifyAll_ne_alreadyInProgress h.inFlight_eq s.now _
    | setData kind hash k value =>
      rw [Service.handle] at hr
      split at hr <;> cases hr
    | _ => cases hr

/-- A stored peer at another address, and a peer that is claimed. -/
theorem skipped_keeps_otherAddress :
    let peer (k : Nat) : Identifier := .ofFn (.mk 2 4) (· == k)
    let claims : InFlight := ⟨[Identifier.hash (peer 5)]⟩
    ∃ s, Reachable Identifier.hash { Config.small with updateAddresses := false } (.zero (.mk 2 4)) s ∧
      let e : Engine := { s.engine with inFlight := claims }
      let moved := e.notify (.keyed Identifier.hash (peer 4) "10.0.0.9:7000") (.ofMillis 1)
      moved.2 = .skipped .addressConflict ∧ moved.1.tables = s.tables ∧ s.tables.totalEntries = 2 ∧
        moved.1.counters = ⟨1, 1, 2, 0⟩ ∧ moved.1.inFlight = claims ∧
        (e.notify (.keyed Identifier.hash (peer 5) "10.0.0.3:7000") (.ofMillis 1)).2 =
          .skipped .alreadyInProgress := by
  intro peer claims
  have hstart : Reachable Identifier.hash { Config.small with updateAddresses := false }
      (.zero (.mk 2 4)) _ := Reachable.start rfl rfl "10.0.0.1:7000" (.ofSeed 7) (.ofMillis 0)
  have hs := hstart.handle (.notify (peer 4) "10.0.0.2:7000")
  obtain ⟨hskip, hclaims, -, -⟩ := hs.skipped_keeps claims (peer 4) "10.0.0.9:7000" (.ofMillis 1)
  obtain ⟨-, -, hclaimed, -⟩ := hs.skipped_keeps claims (peer 5) "10.0.0.3:7000" (.ofMillis 1)
  obtain ⟨recent, -, heq⟩ := hskip .addressConflict (by decide +kernel)
  refine ⟨_, hs, by decide +kernel, ?_, by decide +kernel, ?_, hclaims,
    (hclaimed (by decide +kernel) rfl).1.2 (by decide +kernel)⟩
  · rw [heq]
    rfl
  · rw [heq]
    dsimp only
    decide +kernel

end CubeRouting
