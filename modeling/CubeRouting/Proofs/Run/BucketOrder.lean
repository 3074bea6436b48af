/-
  Ties between the buckets of the neighborhood set.

  Under the balanced policy members of several of the fullest buckets may be
  equally far, and then the order of the buckets decides which one makes room.
  `Policy.decide` lets the buckets come in the order of their first members.
  Here they come in an order of its own at each notification
  (`Engine.notifyIn`).  A member that another order takes out may as well have
  been removed from the neighborhood set before the notification, so no order
  leads to tables that a node does not reach anyway.

  * `Engine.notifyIn_plain`: the order of the first members is that of
    `Engine.notify`;
  * `Engine.notifyIn_order`, `Reachable.notifyIn_eq_run`: what the order changes
    in one notification;
  * `ReachableInAnyOrder.reachable`: what it changes in a run.
-/
import CubeRouting.Proofs.Placement.Records
import CubeRouting.Proofs.Policy.BucketOrder
import CubeRouting.Proofs.Run.Reachable
import CubeRouting.Proofs.Table.Removal

namespace CubeRouting

open CubeRouting.Balanced

namespace Engine

/-! ## Notifications in an order -/

/-- The engine with another neighborhood set. -/
def setNs (e : Engine) (ns : SubTable) : Engine := { e with tables := e.tables.set .ns ns }

/-- A candidate offered to the neighborhood set, whose buckets come in some
    order. -/
def placeNsIn (e : Engine) (order : BucketOrder) (candidate : Candidate) : Engine × Placement :=
  match e.nsPolicy with
  | .balanced p =>
    if !e.config.useNs then (e, .disabled)
    else if e.tables.ns.contains candidate.node.hash then (e, .alreadyPresent)
    else
      let (ns, admission) := e.tables.ns.receive p SlotRef.ns.index ⟨candidate, order⟩
      (e.setNs ns, .considered SlotRef.ns.index admission)
  | _ => e.placeNs candidate

/-- A peer offered to all tables that it may belong to. -/
def placeIn (e : Engine) (order : BucketOrder) (peer : NodeRecord) (standing : Standing)
    (time : Timestamp) : Engine × Report :=
  let candidate : Candidate := ⟨peer, e.self.id, standing.distance, time⟩
  let (e, ns) := e.placeNsIn order candidate
  let (e, rt1, rt2) := e.placePrimary standing.cells candidate
  let (e, secRt1, secRt2) := e.placeSecure standing.cells candidate
  (e, { hash := peer.hash, distance := standing.distance, ns, rt1, rt2, secRt1, secRt2 })

/-- Where a claimed peer stands, or why it is skipped. -/
def appraise (e : Engine) (peer : NodeRecord) (time : Timestamp) : Except SkipReason Standing :=
  if (e.checkRecent peer.hash time).1 then .error .recentlyProcessed
  else
    match e.conflict? peer, Standing.compute e.config e.self.id peer.id with
    | some reason, _ => .error reason
    | none, .error _ => .error .shapeMismatch
    | none, .ok standing => .ok standing

/-- What a notification decides before it places the peer: the memory of recent
    peers after the look-up, and where the peer stands or why it is skipped. -/
def gate (e : Engine) (peer : NodeRecord) (time : Timestamp) :
    Option RecencyWindow × Except SkipReason Standing :=
  if peer.hash = e.self.hash then (e.recent, .error .selfNotification)
  else if peer.id.shape ≠ e.self.id.shape then (e.recent, .error .shapeMismatch)
  else if e.inFlight.contains peer.hash then (e.recent, .error .alreadyInProgress)
  else ((e.checkRecent peer.hash time).2.recent, e.appraise peer time)

/-- The engine as it places a peer that passed the gate: the peer is claimed and
    its entries have its address. -/
def claim (e : Engine) (recent : Option RecencyWindow) (peer : NodeRecord) : Engine :=
  { e with
    recent := recent
    tables := (e.tables.updateAddress peer).1
    inFlight := ⟨peer.hash :: e.inFlight.hashes⟩ }

/-- The engine with a claimed peer placed and released. -/
def conclude (e : Engine) (report : Report) (time : Timestamp) : Engine × Outcome :=
  let (e, outcome) := (e.recordRecent report.hash time).finish (.processed report)
  ({ e with inFlight := e.inFlight.release report.hash }, outcome)

/-- The engine after it was notified of a peer, and what came of it.  The
    buckets of the neighborhood set come in some order. -/
def notifyIn (e : Engine) (order : BucketOrder) (peer : NodeRecord) (time : Timestamp) :
    Engine × Outcome :=
  match e.gate peer time with
  | (recent, .error reason) => { e with recent := recent }.skip reason
  | (recent, .ok standing) =>
    let (e, report) := (e.claim recent peer).placeIn order peer standing time
    e.conclude report time

/-! ## The order of the first members -/

theorem placeNsIn_plain (e : Engine) (candidate : Candidate) :
    e.placeNsIn .plain candidate = e.placeNs candidate := by
  rcases e with ⟨self, config, tables, policy, _, _, _, _, _⟩
  cases policy with
  | balanced p =>
    unfold placeNsIn placeNs Shelf.offer
    dsimp only [RoutingTable.get]
    cases config.useNs <;> cases tables.ns.contains candidate.node.hash <;> rfl
  | _ => rfl

theorem placeIn_plain (e : Engine) (peer : NodeRecord) (standing : Standing) (time : Timestamp) :
    e.placeIn .plain peer standing time = e.place peer standing time := by
  rw [placeIn, placeNsIn_plain]
  rfl

/-- **A claimed peer** is skipped or placed as it is appraised. -/
theorem process_claimed (e : Engine) (claimed : InFlight) (peer : NodeRecord) (time : Timestamp) :
    { e with inFlight := claimed }.process peer time =
      match e.appraise peer time with
      | .error reason =>
        { e with
          inFlight := claimed
          recent := (e.checkRecent peer.hash time).2.recent }.skip reason
      | .ok standing =>
        let (e, report) := { e with
          inFlight := claimed
          recent := (e.checkRecent peer.hash time).2.recent
          tables := (e.tables.updateAddress peer).1 }.place peer standing time
        (e.recordRecent peer.hash time).finish (.processed report) := by
  obtain ⟨hlook, hrecent⟩ := e.checkRecent_claimed claimed peer.hash time
  unfold process appraise
  rw [checkRecent_eq, hlook, hrecent]
  dsimp only
  by_cases hnow : (e.checkRecent peer.hash time).1 = true
  · rw [if_pos hnow, if_pos hnow]
  rw [if_neg hnow, if_neg hnow]
  change (match e.conflict? peer, Standing.compute e.config e.self.id peer.id with
    | some reason, _ => _
    | none, .error _ => _
    | none, .ok standing => _) = _
  cases e.conflict? peer <;> cases Standing.compute e.config e.self.id peer.id <;> rfl

/-- **The order of the first members** is the one of a notification. -/
theorem notifyIn_plain (e : Engine) (peer : NodeRecord) (time : Timestamp) :
    e.notifyIn .plain peer time = e.notify peer time := by
  simp only [notifyIn, placeIn_plain]
  unfold gate notify
  by_cases hself : peer.hash = e.self.hash
  · rw [if_pos hself, if_pos hself]
  rw [if_neg hself, if_neg hself]
  by_cases hshape : peer.id.shape ≠ e.self.id.shape
  · rw [if_pos hshape, if_pos hshape]
  rw [if_neg hshape, if_neg hshape, InFlight.acquire?]
  by_cases hclaimed : e.inFlight.contains peer.hash = true
  · rw [if_pos hclaimed, if_pos hclaimed]
  rw [if_neg hclaimed, if_neg hclaimed]
  dsimp only
  rw [process_claimed]
  cases e.appraise peer time with
  | error reason =>
    have hrelease : (InFlight.mk (peer.hash :: e.inFlight.hashes)).release peer.hash =
        e.inFlight := by rw [InFlight.release, List.erase_cons_head]
    dsimp only [skip, finish]
    rw [hrelease]
  | ok standing => rfl

/-! ## The gate -/

/-- The gate reads neither the counters nor tables without the peer. -/
theorem gate_congr {e f : Engine} {peer : NodeRecord} (hself : f.self = e.self)
    (hconfig : f.config = e.config) (hclaims : f.inFlight = e.inFlight)
    (hrecent : f.recent = e.recent) (hconflict : f.conflict? peer = e.conflict? peer)
    (time : Timestamp) : f.gate peer time = e.gate peer time := by
  obtain ⟨hlook, hmemory⟩ := checkRecent_congr hrecent peer.hash time
  simp only [gate, appraise, hself, hconfig, hclaims, hrecent, hconflict, hlook, hmemory]

end Engine

/-! ## A peer that a table does not have -/

namespace RoutingTable

variable {t : RoutingTable} {s : SubTable} {kind : TableKind} {hash : UInt64} {peer : NodeRecord}

/-- A new address does not change a table that does not have the peer. -/
theorem get_updateAddress_eq_self (h : (t.get kind).get? peer.hash = none) :
    (t.updateAddress peer).1.get kind = t.get kind := by
  rw [updateAddress, get_updateEntries, h]
  rfl

theorem updateAddress_set (h : s.get? peer.hash = none) :
    ((t.set kind s).updateAddress peer).1 = (t.updateAddress peer).1.set kind s := by
  refine ext_get fun other => ?_
  simp only [updateAddress, get_updateEntries, get_set]
  by_cases heq : other = kind
  · simp only [if_pos heq, h, Option.bind_none]
  · simp only [if_neg heq]

theorem entriesOf_set (h : s.get? hash = (t.get kind).get? hash) :
    (t.set kind s).entriesOf hash = t.entriesOf hash := by
  refine List.filterMap_congr fun other _ => ?_
  rw [get_set]
  split
  · rename_i heq
    rw [h, heq]
  · rfl

end RoutingTable

/-! ## Another order -/

namespace Engine

variable {e : Engine}

/-- A neighborhood set that is spread over buckets receives a peer that it does
    not have. -/
theorem placeNsIn_of_balanced {p : Partition} {candidate : Candidate}
    (hp : e.nsPolicy = .balanced p) (huse : e.config.useNs = true)
    (hnew : e.tables.ns.contains candidate.node.hash = false) (order : BucketOrder) :
    e.placeNsIn order candidate =
      (e.setNs (e.tables.ns.receive p SlotRef.ns.index ⟨candidate, order⟩).1,
        .considered SlotRef.ns.index
          (e.tables.ns.receive p SlotRef.ns.index ⟨candidate, order⟩).2) := by
  simp only [placeNsIn, hp, huse, hnew, Bool.not_true, Bool.false_eq_true, if_false]

/-- **The neighborhood set** does the same in another order, or takes out a
    member without which it would have had room. -/
theorem placeNsIn_order (hw : e.tables.ns.WellFormed) (candidate : Candidate)
    (order order' : BucketOrder) :
    e.placeNsIn order' candidate = e.placeNsIn order candidate ∨
      ∃ w ∈ e.tables.ns.slot SlotRef.ns.index,
        e.tables.ns.contains candidate.node.hash = false ∧
        (e.placeNsIn order candidate).2 = .considered SlotRef.ns.index (.replaced w.hash) ∧
        (e.setNs (e.tables.ns.remove w.hash).1).placeNsIn order' candidate =
          ((e.placeNsIn order candidate).1, .considered SlotRef.ns.index .admitted) := by
  cases hp : e.nsPolicy with
  | balanced p =>
    cases huse : e.config.useNs with
    | false =>
      left
      simp only [placeNsIn, hp, huse, Bool.not_false, if_true]
    | true =>
      cases hnew : e.tables.ns.contains candidate.node.hash with
      | true =>
        left
        simp only [placeNsIn, hp, huse, hnew, Bool.not_true, Bool.false_eq_true, if_false, if_true]
      | false =>
        rw [placeNsIn_of_balanced hp huse hnew, placeNsIn_of_balanced hp huse hnew]
        rcases hw.receive_order p candidate order order' with
          hsame | ⟨w, hmem, -, hreplaced, hagain⟩
        · left
          rw [hsame]
        · right
          have hnew' : (e.tables.ns.remove w.hash).1.contains candidate.node.hash = false := by
            rw [SubTable.contains_remove, hnew, Bool.and_false]
          refine ⟨w, hmem, rfl, by rw [hreplaced], ?_⟩
          generalize (e.tables.ns.remove w.hash).1 = ns at hagain hnew' ⊢
          have hplace : (e.setNs ns).placeNsIn order' candidate =
              (e.setNs (ns.receive p SlotRef.ns.index ⟨candidate, order'⟩).1,
                .considered SlotRef.ns.index
                  (ns.receive p SlotRef.ns.index ⟨candidate, order'⟩).2) :=
            placeNsIn_of_balanced (e := e.setNs ns) hp huse hnew' order'
          rw [hplace, hagain]
  | _ =>
    left
    simp only [placeNsIn, hp]

/-- **Placement** does the same in another order, or takes out a neighbor without
    which nobody would have had to make room. -/
theorem placeIn_order (hw : e.tables.ns.WellFormed) (peer : NodeRecord) (standing : Standing)
    (time : Timestamp) (order order' : BucketOrder) :
    e.placeIn order' peer standing time = e.placeIn order peer standing time ∨
      ∃ w ∈ e.tables.ns.slot SlotRef.ns.index, e.tables.ns.contains peer.hash = false ∧
        (e.placeIn order peer standing time).2.ns =
          .considered SlotRef.ns.index (.replaced w.hash) ∧
        (e.setNs (e.tables.ns.remove w.hash).1).placeIn order' peer standing time =
          ((e.placeIn order peer standing time).1,
            { (e.placeIn order peer standing time).2 with
              ns := .considered SlotRef.ns.index .admitted }) := by
  rcases placeNsIn_order hw ⟨peer, e.self.id, standing.distance, time⟩ order order' with
    hsame | ⟨w, hmem, hnew, hreplaced, hagain⟩
  · left
    rw [placeIn, hsame]
    rfl
  · right
    refine ⟨w, hmem, hnew, hreplaced, ?_⟩
    change (e.setNs (e.tables.ns.remove w.hash).1).placeNsIn order'
      ⟨peer, (e.setNs (e.tables.ns.remove w.hash).1).self.id, standing.distance, time⟩ = _ at hagain
    rw [placeIn, hagain]
    rfl

/-- The gate does not read a neighborhood set that does not have the peer. -/
theorem gate_setNs {ns : SubTable} {peer : NodeRecord}
    (h : ns.get? peer.hash = (e.tables.get .ns).get? peer.hash) (time : Timestamp) :
    (e.setNs ns).gate peer time = e.gate peer time := by
  refine gate_congr (e := e) (f := e.setNs ns) rfl rfl rfl rfl ?_ time
  rw [conflict?, conflict?, setNs, RoutingTable.entriesOf_set h]

theorem claim_setNs {ns : SubTable} {peer : NodeRecord} (h : ns.get? peer.hash = none)
    (recent : Option RecencyWindow) :
    (e.setNs ns).claim recent peer = (e.claim recent peer).setNs ns := by
  rw [claim, setNs, RoutingTable.updateAddress_set h]
  rfl

/-- The engine with other counters. -/
def recount (e : Engine) (n : Counters) : Engine := { e with counters := n }

/-- **What the order of the buckets changes in a notification.**  In another order
    the same comes of it, or another neighbor has to make room.  If that one was
    removed before, the node places the peer in the same tables in any order,
    and only the counters tell the difference. -/
theorem notifyIn_order (hw : ∀ kind, (e.tables.get kind).WellFormed) (peer : NodeRecord)
    (time : Timestamp) (order order' : BucketOrder) :
    e.notifyIn order' peer time = e.notifyIn order peer time ∨
      ∃ w ∈ e.tables.ns.slot SlotRef.ns.index, ∃ (report : Report) (n : Counters),
        (e.notifyIn order peer time).2 =
          .processed { report with ns := .considered SlotRef.ns.index (.replaced w.hash) } ∧
        (e.setNs (e.tables.ns.remove w.hash).1).notifyIn order' peer time =
          ((e.notifyIn order peer time).1.recount n,
            .processed { report with ns := .considered SlotRef.ns.index .admitted }) := by
  rcases hgate : e.gate peer time with ⟨recent, reason | standing⟩
  · left
    simp only [notifyIn, hgate]
  have hmoved := RoutingTable.edits_updateAddress peer (hw .ns)
  rcases placeIn_order (e := e.claim recent peer) ((hw .ns).edits hmoved) peer standing time order
    order' with hsame | ⟨w, hmem, hnew, hreplaced, hagain⟩
  · left
    simp only [notifyIn, hgate, hsame]
  · right
    have hstored : (e.tables.get .ns).contains peer.hash = false := hmoved.contains_eq.symm.trans hnew
    have hnone := SubTable.get?_eq_none hstored
    -- the peer is not a neighbor, so its address does not change the neighborhood set
    have hns : (e.claim recent peer).tables.ns = e.tables.ns :=
      RoutingTable.get_updateAddress_eq_self hnone
    rw [hns] at hmem hagain
    have hnone' : (e.tables.ns.remove w.hash).1.get? peer.hash = none := by
      refine SubTable.get?_eq_none ?_
      rw [SubTable.contains_remove]
      exact Bool.and_eq_false_imp.2 fun _ => hstored
    have hgate' := (gate_setNs (hnone'.trans hnone.symm) time).trans hgate
    let placed := (e.claim recent peer).placeIn order peer standing time
    let report : Report := { placed.2 with ns := .considered SlotRef.ns.index .admitted }
    refine ⟨w, hmem, placed.2, placed.1.counters.record (.processed report), ?_, ?_⟩
    · simp only [notifyIn, hgate, conclude, finish]
      rw [← hreplaced]
    · simp only [notifyIn, hgate, hgate', claim_setNs hnone', hagain]
      rfl

/-! ## Counters -/

section
variable (e) (n : Counters) (order : BucketOrder)

theorem placeNsIn_recount (candidate : Candidate) : (e.recount n).placeNsIn order candidate =
    ((e.placeNsIn order candidate).1.recount n, (e.placeNsIn order candidate).2) := by
  rcases e with ⟨_, config, tables, policy, _, _, _, _, _⟩
  cases policy with
  | balanced p =>
    unfold placeNsIn recount
    dsimp only
    cases config.useNs <;> cases tables.ns.contains candidate.node.hash <;> rfl
  | _ =>
    unfold placeNsIn placeNs recount
    dsimp only
    cases config.useNs <;> rfl

theorem placePrimary_recount (cells : Option Cells) (candidate : Candidate) :
    (e.recount n).placePrimary cells candidate =
      ((e.placePrimary cells candidate).1.recount n, (e.placePrimary cells candidate).2) := by
  cases cells <;> rfl

theorem placeSecure_recount (cells : Option Cells) (candidate : Candidate) :
    (e.recount n).placeSecure cells candidate =
      ((e.placeSecure cells candidate).1.recount n, (e.placeSecure cells candidate).2) := by
  rcases e with ⟨_, _, _, _, _, secure, _, _, _⟩
  cases cells <;> cases secure <;> rfl

theorem placeIn_recount (peer : NodeRecord) (standing : Standing) (time : Timestamp) :
    (e.recount n).placeIn order peer standing time =
      ((e.placeIn order peer standing time).1.recount n,
        (e.placeIn order peer standing time).2) := by
  simp only [placeIn, placeNsIn_recount, placePrimary_recount, placeSecure_recount]
  rfl

/-- **Counters do not matter** for what comes of a notification. -/
theorem notifyIn_recount (peer : NodeRecord) (time : Timestamp) :
    ∃ m, (e.recount n).notifyIn order peer time =
      ((e.notifyIn order peer time).1.recount m, (e.notifyIn order peer time).2) := by
  have hgate : (e.recount n).gate peer time = e.gate peer time :=
    gate_congr (e := e) (f := e.recount n) rfl rfl rfl rfl rfl time
  rcases h : e.gate peer time with ⟨recent, reason | standing⟩
  · refine ⟨n.record (.skipped reason), ?_⟩
    simp only [notifyIn, hgate, h]
    rfl
  · refine ⟨n.record (.processed ((e.claim recent peer).placeIn order peer standing time).2), ?_⟩
    simp only [notifyIn, hgate, h]
    have hclaim : (e.recount n).claim recent peer = (e.claim recent peer).recount n := rfl
    rw [hclaim, placeIn_recount]
    rfl

end

end Engine

/-! ## Runs -/

namespace Service

variable {key : Identifier → UInt64}

/-- The service after a peer was seen, with the buckets of the neighborhood set
    in some order. -/
def notifyIn (s : Service) (order : BucketOrder) (peer : NodeRecord) : Service :=
  { s with engine := (s.engine.notifyIn order peer s.now).1 }

/-- The service with other counters. -/
def recount (s : Service) (n : Counters) : Service := { s with engine := s.engine.recount n }

theorem handle_notify_eq (s : Service) (id : Identifier) (address : Address) :
    (s.handle key (.notify id address)).1 = s.notifyIn .plain (.keyed key id address) := by
  rw [notifyIn, Engine.notifyIn_plain]
  rfl

theorem notifyIn_recount (s : Service) (n : Counters) (order : BucketOrder) (peer : NodeRecord) :
    ∃ m, (s.recount n).notifyIn order peer = (s.notifyIn order peer).recount m := by
  obtain ⟨m, h⟩ := s.engine.notifyIn_recount n order peer s.now
  refine ⟨m, ?_⟩
  rw [notifyIn, show (s.recount n).engine.notifyIn order peer (s.recount n).now = _ from h]
  rfl

/-- A request that brings no peers leaves the counters. -/
theorem handle_recount (s : Service) (n : Counters) {r : Request} (hr : r.peers = []) :
    ((s.recount n).handle key r).1 = ((s.handle key r).1).recount n := by
  cases r with
  | notify id address => cases hr
  | recoveryReply peers =>
    rw [show peers = [] from hr]
    rfl
  | setData kind hash k value =>
    have hsame : (s.recount n).tables.setData? kind hash k value =
        s.tables.setData? kind hash k value := rfl
    rw [handle, handle, setData, setData, hsame]
    cases s.tables.setData? kind hash k value <;> rfl
  | _ => rfl

end Service

variable {key : Identifier → UInt64} {c : Config} {self : Identifier} {s : Service}

/-- The states of a node whose buckets come in an order of its own at each
    notification.  A list of peers is as many notifications. -/
inductive ReachableInAnyOrder (key : Identifier → UInt64) (c : Config) (x : Identifier) :
    Service → Prop where
  | create {address : Address} {entropy : WordStream} {now : Timestamp} {s : Service} :
      Service.create (.keyed key x address) c entropy now = .ok s → ReachableInAnyOrder key c x s
  | quiet {s : Service} (r : Request) : r.peers = [] →
      ReachableInAnyOrder key c x s → ReachableInAnyOrder key c x (s.handle key r).1
  | notify {s : Service} (order : BucketOrder) (id : Identifier) (address : Address) :
      ReachableInAnyOrder key c x s →
        ReachableInAnyOrder key c x (s.notifyIn order (.keyed key id address))

/-- One of the orders is that of the first members. -/
theorem Reachable.inAnyOrder (h : Reachable key c self s) : ReachableInAnyOrder key c self s := by
  refine h.induction_singles (fun address entropy now => ?_) (fun s r _ hr hs => .quiet r hr hs)
    fun s id address _ hs => ?_
  · exact .create (Service.create_ok_iff.2 ⟨h.config_valid, rfl⟩)
  · rw [s.handle_notify_eq]
    exact .notify .plain id address hs

/-- **A notification in any order** leaves the node as the notification does, or as
    it does after one of the neighbors was removed.  Only the counters tell the
    difference. -/
theorem Reachable.notifyIn_eq_run (h : Reachable key c self s) (order : BucketOrder)
    (id : Identifier) (address : Address) :
    ∃ n, (s.notifyIn order (.keyed key id address)).recount n =
        s.run key [.notify id address] ∨
      ∃ w ∈ s.tables.ns.slot SlotRef.ns.index,
        (s.notifyIn order (.keyed key id address)).recount n =
          s.run key [.removeFrom .ns w.hash, .notify id address] := by
  rcases Engine.notifyIn_order h.invariant.wellFormed (.keyed key id address) s.now order .plain with
    hsame | ⟨w, hmem, report, n, -, hagain⟩
  · refine ⟨(s.notifyIn order (.keyed key id address)).engine.counters, Or.inl ?_⟩
    change _ = (s.handle key (.notify id address)).1
    rw [Service.handle_notify_eq, Service.notifyIn, Service.notifyIn, hsame]
    rfl
  · refine ⟨n, Or.inr ⟨w, hmem, ?_⟩⟩
    change _ = ((s.handle key (.removeFrom .ns w.hash)).1.handle key (.notify id address)).1
    have hengine : (s.handle key (.removeFrom .ns w.hash)).1 =
        ⟨s.engine.setNs (s.engine.tables.ns.remove w.hash).1, s.now⟩ := rfl
    rw [hengine, Service.handle_notify_eq, Service.notifyIn, Service.notifyIn, hagain]
    rfl

/-- **Any order leads to tables that are reached in the order of the first
    members.**  Whatever the orders are, there is a run of requests after which
    the node is the same but for its counters. -/
theorem ReachableInAnyOrder.reachable (h : ReachableInAnyOrder key c self s) :
    ∃ n, Reachable key c self (s.recount n) := by
  induction h with
  | @create _ _ _ s h => exact ⟨s.engine.counters, .create h⟩
  | @quiet s r hr _ ih =>
    obtain ⟨n, ih⟩ := ih
    refine ⟨n, ?_⟩
    rw [← s.handle_recount n hr]
    exact ih.handle r
  | @notify s order id address _ ih =>
    obtain ⟨n, ih⟩ := ih
    obtain ⟨m, hcount⟩ := s.notifyIn_recount n order (.keyed key id address)
    obtain ⟨m', heq⟩ := ih.notifyIn_eq_run order id address
    rw [hcount] at heq
    have hrun : Reachable key c self
        (((s.notifyIn order (.keyed key id address)).recount m).recount m') := by
      rcases heq with heq | ⟨w, -, heq⟩
      · rw [heq]
        exact ih.run _
      · rw [heq]
        exact ih.run _
    exact ⟨m', hrun⟩

/-- The tables are well-formed and their entries are in their places whatever the
    orders are. -/
theorem ReachableInAnyOrder.invariant (h : ReachableInAnyOrder key c self s) :
    Invariant key c self s := by
  obtain ⟨n, hn⟩ := h.reachable
  have hinv := hn.invariant
  exact ⟨hinv.self_id, hinv.config_eq, ⟨hinv.sane.hash, hinv.sane.secure⟩, hinv.grid,
    hinv.wellFormed, hinv.inPlace⟩

/-- The order may matter: a closer peer comes to two neighbors that are equally
    far in two buckets, and takes the place of the one or the other. -/
theorem notifyIn_reversed :
    let c := { Config.small with nsSize := 2, nsPolicy := .balancedOrthants }
    let first := Identifier.hash (.ofFn (.mk 2 4) (· == 2))
    let second := Identifier.hash (.ofFn (.mk 2 4) (· == 3))
    let peer : NodeRecord := .keyed Identifier.hash (.ofFn (.mk 2 4) (· ∈ [0, 2, 4]))
      "10.0.0.4:7000"
    ∃ s order, Reachable Identifier.hash c (.zero (.mk 2 4)) s ∧
      (∀ e ∈ s.tables.ns.entries, e.distance = 4) ∧
      (s.notifyIn .plain peer).tables.ns.entries.map (·.hash) = [peer.hash, first] ∧
      (s.notifyIn order peer).tables.ns.entries.map (·.hash) = [peer.hash, second] := by
  intro c first second peer
  have hstart : Reachable Identifier.hash
      { Config.small with nsSize := 2, nsPolicy := .balancedOrthants } (.zero (.mk 2 4)) _ :=
    Reachable.start rfl rfl "10.0.0.1:7000" (.ofSeed 7) (.ofMillis 0)
  have hs := (hstart.handle (.notify (.ofFn (.mk 2 4) (· == 2)) "10.0.0.2:7000")).handle
    (.notify (.ofFn (.mk 2 4) (· == 3)) "10.0.0.3:7000")
  exact ⟨_, ⟨List.reverse, fun all => List.reverse_perm all⟩, hs, by decide +kernel,
    by decide +kernel, by decide +kernel⟩

end CubeRouting
