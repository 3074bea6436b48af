/-
  The order of the neighborhood set under the balanced policies.

  Whatever a node serves, the members of its neighborhood set are sorted by
  distance, and those at one distance by the time of their admission.  So the
  position of a new member can be found by binary search.

  * `Service.nsAdmitted`: the log of admissions, read from the answers;
  * `Reachable.inOrder_quiet`, `Reachable.inOrder_notify`: what one request does;
  * `balanced_neighborhood_sorted`: the order after every run.
-/
import CubeRouting.Proofs.Policy.Sorted
import CubeRouting.Proofs.Run.Neighborhood

namespace CubeRouting

variable {key : Identifier → UInt64} {c : Config} {self : Identifier} {s : Service}
  {log : List UInt64}

/-! ## The log of admissions -/

/-- The peer that an outcome admitted to the neighborhood set, if it did. -/
def Outcome.nsAdmitted : Outcome → List UInt64
  | processed report => if report.ns.isAdmitted then [report.hash] else []
  | skipped _ => []

/-- The peers that the outcomes of an answer admitted to the neighborhood set. -/
def Answer.nsAdmitted : Answer → List UInt64
  | outcomes os => os.flatMap Outcome.nsAdmitted
  | _ => []

/-- The peers that the neighborhood set admits in a run, one after another. -/
def Service.nsAdmitted (key : Identifier → UInt64) (s : Service) : List Request → List UInt64
  | [] => []
  | r :: rs => (s.handle key r).2.nsAdmitted ++ (s.handle key r).1.nsAdmitted key rs

theorem Service.nsAdmitted_quiet (key : Identifier → UInt64) (s : Service) {r : Request}
    (hr : r.peers = []) : (s.handle key r).2.nsAdmitted = [] := by
  cases r with
  | notify id address => cases hr
  | recoveryReply peers =>
    rw [show peers = [] from hr]
    rfl
  | setData kind hash k value =>
    rw [handle]
    cases s.setData kind hash k value <;> rfl
  | _ => rfl

theorem Service.nsAdmitted_notify (key : Identifier → UInt64) (s : Service) (id : Identifier)
    (address : Address) : (s.handle key (.notify id address)).2.nsAdmitted =
      (s.engine.notify (.keyed key id address) s.now).2.nsAdmitted := List.append_nil _

/-! ## One request -/

/-- The members of the neighborhood set, with their distances. -/
def Service.nsDistances (s : Service) : List (UInt64 × Binary64) :=
  distances (s.tables.ns.slot SlotRef.ns.index)

theorem Standing.isNaN_distance {x y : Identifier} {standing : Standing}
    (h : Standing.compute c x y = .ok standing) : standing.distance.isNaN = false := by
  obtain ⟨hmeasure, -, -⟩ := Standing.compute_ok h
  rw [← Metric.between_of_measure hmeasure]
  exact c.isNaN_distance x y

theorem Invariant.nsDistances_sublist (h : Invariant key c self s) {t : RoutingTable}
    (ht : s.tables.Evolves (fun _ _ _ => False) t) :
    (distances (t.ns.slot SlotRef.ns.index)).Sublist s.nsDistances :=
  (ht .ns).sublist_map (fun _ _ hc => Prod.ext hc.hash hc.distance) (h.wellFormed .ns) _

/-- **A request that brings no peers** keeps the order. -/
theorem Reachable.inOrder_quiet (h : Reachable key c self s) (ho : InOrder log s.nsDistances)
    {r : Request} (hr : r.peers = []) : InOrder log (s.handle key r).1.nsDistances := by
  have htends : s.Tends (fun _ _ _ => False) (s.handle key r).1 := s.handle_tends hr
  exact ho.sublist (h.invariant.nsDistances_sublist htends.2)

section
variable (hns : c.nsPolicy = .balancedOrthants ∨ c.nsPolicy = .balancedRing)
include hns

/-- **A peer that is seen** gets its place in the order. -/
theorem Reachable.inOrder_notify (h : Reachable key c self s) (ho : InOrder log s.nsDistances)
    (id : Identifier) (address : Address) :
    InOrder (log ++ (s.handle key (.notify id address)).2.nsAdmitted)
      (s.handle key (.notify id address)).1.nsDistances := by
  rw [s.nsAdmitted_notify]
  obtain ⟨reason, hout, hsame⟩ | ⟨-, -, -, standing, e₀, hstanding, he₀, hout, hsame⟩ :=
    s.engine.notify_cases (.keyed key id address) s.now
  · have hkeep : (s.handle key (.notify id address)).1.nsDistances = s.nsDistances :=
      congrArg (fun t : RoutingTable => distances (t.ns.slot SlotRef.ns.index)) hsame.tables
    rw [hout, hkeep]
    exact ho.append_nil
  -- the peer is placed after its entries were moved
  have hmoved := h.handle (.updateAddress id address)
  have ho' : InOrder log (s.handle key (.updateAddress id address)).1.nsDistances :=
    h.inOrder_quiet ho rfl
  obtain ⟨p, hp⟩ : ∃ p, Policy.ofNs c = .balanced p := by
    rcases hns with hns | hns <;> rw [Policy.ofNs, hns] <;> exact ⟨_, rfl⟩
  have hpolicy := h.nsPolicy_balanced hp
  have hw : (s.handle key (.updateAddress id address)).1.tables.ns.WellFormed :=
    hmoved.invariant.wellFormed .ns
  let candidate : Candidate := ⟨.keyed key id address, e₀.self.id, standing.distance, s.now⟩
  have hnan : candidate.distance.isNaN = false := Standing.isNaN_distance hstanding
  have hafter := (congrArg (·.get .ns) hsame.tables).trans
    (e₀.ns_place (.keyed key id address) standing s.now)
  have hreport := (e₀.places_place (.keyed key id address) standing s.now).ns_offer.1
  have hcases := e₀.placeNs_cases candidate
  rw [← hafter, ← hreport, he₀.tables, he₀.nsPolicy.trans hpolicy] at hcases
  rw [hout, Outcome.nsAdmitted]
  rcases hcases with ⟨htable, -, hdeclined⟩ | ⟨hnew, a, hoffer, hplaced⟩
  · have hkeep : (s.handle key (.notify id address)).1.nsDistances =
        (s.handle key (.updateAddress id address)).1.nsDistances :=
      congrArg (fun t : SubTable => distances (t.slot SlotRef.ns.index)) htable
    rw [hdeclined, hkeep]
    exact ho'.append_nil
  · have hbalanced := hw.inOrder_receive p ⟨candidate, .plain⟩ hnew hnan ho'
    rw [SubTable.offer_balanced] at hoffer
    obtain ⟨htable, hrest⟩ := Prod.mk.inj hoffer
    obtain ⟨-, hadmission⟩ := Prod.mk.inj hrest
    rw [hplaced, ← hadmission]
    have hkeep : (s.handle key (.notify id address)).1.nsDistances = _ :=
      congrArg (fun t : SubTable => distances (t.slot SlotRef.ns.index)) htable.symm
    rw [hkeep]
    exact hbalanced

/-- **A request** keeps the order. -/
theorem Reachable.inOrder_handle (h : Reachable key c self s) (ho : InOrder log s.nsDistances)
    (r : Request) : InOrder (log ++ (s.handle key r).2.nsAdmitted)
      (s.handle key r).1.nsDistances := by
  by_cases hr : r.peers = []
  · rw [s.nsAdmitted_quiet key hr, List.append_nil]
    exact h.inOrder_quiet ho hr
  cases r with
  | notify id address => exact h.inOrder_notify hns ho id address
  | recoveryReply peers =>
    clear hr
    induction peers generalizing s log with
    | nil => exact ho.append_nil
    | cons p peers ih =>
      have hrest := ih (h.handle (.notify p.1 p.2)) (h.inOrder_notify hns ho p.1 p.2)
      rw [List.append_assoc, s.nsAdmitted_notify] at hrest
      exact hrest
  | _ => exact absurd rfl hr

/-- **A run** keeps the order. -/
theorem Reachable.inOrder_run (h : Reachable key c self s) (ho : InOrder log s.nsDistances)
    (rs : List Request) : InOrder (log ++ s.nsAdmitted key rs) (s.run key rs).nsDistances := by
  induction rs generalizing s log with
  | nil => exact ho.append_nil
  | cons r rs ih =>
    have hrest := ih (h.handle r) (h.inOrder_handle hns ho r)
    rw [List.append_assoc] at hrest
    exact hrest

/-- **The neighborhood set of a balanced policy is sorted** after every run: by
    distance, and at one distance by the time of the last admission.  So binary
    search finds the position of a new member among those that are there when
    the peer is offered, and among any that stay. -/
theorem balanced_neighborhood_sorted {address : Address} {entropy : WordStream} {now : Timestamp}
    (h : Service.create (.keyed key self address) c entropy now = .ok s) (rs : List Request) :
    InOrder (s.nsAdmitted key rs) (s.run key rs).nsDistances ∧
    ∀ (peer : NodeRecord) (members : List Entry) (d : Binary64),
      members.Sublist
        (((s.run key rs).tables.updateAddress peer).1.ns.slot SlotRef.ns.index) →
      d.isNaN = false → bisectPosition members d = Balanced.sortedPosition members d := by
  have hstart : Reachable key c self s := .create h
  obtain ⟨-, rfl⟩ := Service.create_ok_iff.1 h
  have hempty : (RoutingTable.ofConfig c).ns.slot SlotRef.ns.index = [] := SubTable.slot_empty ..
  have hnil : InOrder [] (distances ((RoutingTable.ofConfig c).ns.slot SlotRef.ns.index)) := by
    rw [hempty]
    exact .nil []
  have hrun := hstart.inOrder_run hns hnil rs
  rw [List.nil_append] at hrun
  refine ⟨hrun, fun peer members d hsub hd => ?_⟩
  have hmoved := (hstart.run rs).invariant.nsDistances_sublist
    (RoutingTable.evolves_updateAddress _ peer)
  exact bisectPosition_eq (hrun.sublist ((hsub.map _).trans hmoved)) hd

end

/-- A peer that is removed and comes back is behind one at its distance that it
    was ahead of. -/
theorem balanced_neighborhood_sorted_returningPeer :
    let peer (k : Nat) : Identifier := .ofFn (.mk 2 4) (· == k)
    let hash (k : Nat) : UInt64 := Identifier.hash (peer k)
    let next : NodeRecord := .keyed Identifier.hash (peer 7) "10.0.0.5:7000"
    let rs : List Request := [.notify (peer 4) "10.0.0.2:7000", .notify (peer 5) "10.0.0.3:7000",
      .removePeer (hash 4), .notify (peer 4) "10.0.0.2:7000", .notify (peer 6) "10.0.0.4:7000"]
    ∃ s, Service.create (.keyed Identifier.hash (.zero (.mk 2 4)) "10.0.0.1:7000")
        { Config.small with nsPolicy := .balancedRing } (.ofSeed 7) (.ofMillis 0) = .ok s ∧
      (s.run Identifier.hash rs).nsDistances = [(hash 6, 1), (hash 5, 2), (hash 4, 2)] ∧
      AdmittedBefore [hash 4, hash 5, hash 4, hash 6] (hash 5) (hash 4) ∧
      bisectPosition (((s.run Identifier.hash rs).tables.updateAddress next).1.ns.slot
        SlotRef.ns.index) 1 = 1 := by
  intro peer hash next rs
  have hcreate : Service.create (.keyed Identifier.hash (.zero (.mk 2 4)) "10.0.0.1:7000")
      { Config.small with nsPolicy := .balancedRing } (.ofSeed 7) (.ofMillis 0) = .ok _ :=
    Service.create_ok_iff.2 ⟨⟨rfl, rfl⟩, rfl⟩
  obtain ⟨horder, hsearch⟩ := balanced_neighborhood_sorted (Or.inr rfl) hcreate rs
  generalize hlog : Service.nsAdmitted Identifier.hash _ rs = log at horder
  obtain rfl : log = [hash 4, hash 5, hash 4, hash 6] := by
    rw [← hlog]
    decide +kernel
  generalize hmembers : Service.nsDistances _ = xs at horder
  obtain rfl : xs = [(hash 6, 1), (hash 5, 2), (hash 4, 2)] := by
    rw [← hmembers]
    decide +kernel
  refine ⟨_, hcreate, hmembers, ?_, ?_⟩
  · have hlast : Precedes _ (hash 5, 2) (hash 4, 2) :=
      (List.pairwise_cons.1 (List.pairwise_cons.1 horder.pairwise).2).1 _ (by simp)
    exact (hlast.resolve_left (by decide)).2
  · rw [hsearch next _ 1 (List.Sublist.refl _) (by decide +kernel)]
    decide +kernel

end CubeRouting
