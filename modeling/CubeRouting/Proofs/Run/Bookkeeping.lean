/-
  The counters of a node and its tables.

  A node counts the peers that it was notified of and, from its reports, the
  entries that came and went; entries are also removed on request.  `Balances`
  says that these counts agree with each other and with the tables.

  * `Balances.notify`, `Balances.quiet`: a request keeps the books balanced;
  * `run_balances`: they are balanced after every run.
-/
import CubeRouting.Proofs.Placement.Records
import CubeRouting.Proofs.Run.Reachable
import CubeRouting.Proofs.Table.Size
import Mathlib.Algebra.BigOperators.Ring.Finset

namespace CubeRouting

/-! ## All tables -/

namespace RoutingTable

variable {t t' : RoutingTable}

theorem totalEntries_eq_sum (t : RoutingTable) :
    t.totalEntries = (TableKind.all.map fun kind => (t.get kind).size).sum := by
  simp [totalEntries, TableKind.all, Nat.add_assoc]

/-- What every table loses and gains is what all together do. -/
theorem totalEntries_add {lost gained : TableKind → Nat}
    (h : ∀ kind, (t'.get kind).size + lost kind = (t.get kind).size + gained kind) :
    t'.totalEntries + (TableKind.all.map lost).sum =
      t.totalEntries + (TableKind.all.map gained).sum := by
  rw [totalEntries_eq_sum, totalEntries_eq_sum, ← List.sum_map_add, ← List.sum_map_add]
  exact congrArg List.sum (List.map_congr_left fun kind _ => h kind)

theorem totalEntries_of_lost {lost : TableKind → Nat}
    (h : ∀ kind, (t'.get kind).size + lost kind = (t.get kind).size) :
    t'.totalEntries + (TableKind.all.map lost).sum = t.totalEntries := by
  have hadd : ∀ kind, (t'.get kind).size + lost kind = (t.get kind).size + 0 := h
  exact totalEntries_add hadd

theorem totalEntries_of_size (h : ∀ kind, (t'.get kind).size = (t.get kind).size) :
    t'.totalEntries = t.totalEntries := by
  have hlost : ∀ kind, (t'.get kind).size + 0 = (t.get kind).size := h
  exact totalEntries_of_lost hlost

/-- What one table loses all together do. -/
theorem totalEntries_set {kind : TableKind} {s : SubTable} {n : Nat}
    (h : s.size + n = (t.get kind).size) : (t.set kind s).totalEntries + n = t.totalEntries := by
  rw [totalEntries_eq_sum, totalEntries_eq_sum]
  cases kind <;> simp only [TableKind.all, List.map_cons, List.map_nil, List.sum_cons, List.sum_nil,
    set, get] at h ⊢ <;> omega

theorem totalEntries_set_modify (t : RoutingTable) (kind : TableKind) (hash : UInt64)
    (f : Entry → Entry) : (t.set kind ((t.get kind).modify hash f)).totalEntries = t.totalEntries :=
  totalEntries_set (n := 0) ((t.get kind).size_modify hash f)

/-- The entries of all tables are counted. -/
theorem totalEntries_eq_length (hw : ∀ kind, (t.get kind).WellFormed) :
    t.totalEntries = t.allEntries.length := by
  rw [totalEntries_eq_sum, allEntries, List.length_flatMap]
  refine congrArg List.sum (List.map_congr_left fun kind _ => ?_)
  rw [(hw kind).size_eq_scan, (hw kind).entries_eq_scan]

theorem totalEntries_updateEntries (t : RoutingTable) (hash : UInt64) (f : Entry → Option Entry) :
    (t.updateEntries hash f).1.totalEntries = t.totalEntries := by
  refine totalEntries_of_size fun kind => ?_
  rw [get_updateEntries]
  split
  · exact SubTable.size_modify ..
  · rfl

theorem totalEntries_updateAll (t : RoutingTable) (f : Entry → Entry) :
    (t.updateAll f).totalEntries = t.totalEntries := by
  refine totalEntries_of_size fun kind => ?_
  rw [get_updateAll, SubTable.size_modifyAll]

theorem totalEntries_updateAddress (t : RoutingTable) (peer : NodeRecord) :
    (t.updateAddress peer).1.totalEntries = t.totalEntries := totalEntries_updateEntries ..

section
variable (hw : ∀ kind, (t.get kind).WellFormed)
include hw

/-- The entries of a peer that is removed are returned. -/
theorem totalEntries_removePeer (hash : UInt64) :
    (t.removePeer hash).1.totalEntries + (t.removePeer hash).2.length = t.totalEntries := by
  have hreturned : (t.removePeer hash).2 =
      TableKind.all.flatMap fun kind => ((t.get kind).remove hash).2.toList := by
    rw [← List.filterMap_eq_flatMap_toList]
    rfl
  rw [hreturned, List.length_flatMap]
  refine totalEntries_of_lost fun kind => ?_
  rw [get_removePeer]
  exact (hw kind).size_remove_add hash

/-- The entries that satisfy a condition and are removed are returned. -/
theorem totalEntries_removeWhere (p : Entry → Bool) :
    (t.removeWhere p).1.totalEntries + (t.removeWhere p).2.length = t.totalEntries := by
  have hreturned : (t.removeWhere p).2 =
      TableKind.all.flatMap fun kind => ((t.get kind).removeWhere p).2 := rfl
  rw [hreturned, List.length_flatMap]
  refine totalEntries_of_lost fun kind => ?_
  rw [get_removeWhere]
  exact (hw kind).size_removeAll _

end

end RoutingTable

/-! ## Reports -/

namespace Report

theorem length_filterMap_all {α : Type} (f : TableKind → Option α) :
    (TableKind.all.filterMap f).length =
      (TableKind.all.map fun kind => (f kind).toList.length).sum := by
  rw [List.filterMap_eq_flatMap_toList, List.length_flatMap]

theorem length_admittedTo (r : Report) :
    r.admittedTo.length = (TableKind.all.map fun kind => (r.get kind).isAdmitted.toNat).sum := by
  rw [admittedTo, ← List.filterMap_eq_filter, length_filterMap_all]
  refine congrArg List.sum (List.map_congr_left fun kind _ => ?_)
  rw [Option.guard]
  cases (r.get kind).isAdmitted <;> rfl

theorem length_evictions (r : Report) :
    r.evictions.length =
      (TableKind.all.map fun kind => (r.get kind).evicted?.toList.length).sum := by
  rw [evictions, length_filterMap_all]
  refine congrArg List.sum (List.map_congr_left fun kind _ => ?_)
  cases (r.get kind).evicted? <;> rfl

end Report

/-- **A report counts what the tables gain and lose.** -/
theorem Engine.Places.totalEntries {e e' : Engine} {cells : Option Cells} {candidate : Candidate}
    {r : Report} (h : e.Places e' cells candidate r)
    (hw : ∀ kind, (e.tables.get kind).WellFormed) :
    e'.tables.totalEntries + r.evictions.length = e.tables.totalEntries + r.admittedTo.length := by
  rw [r.length_admittedTo, r.length_evictions]
  exact RoutingTable.totalEntries_add fun kind => (h.placed kind).size_eq (hw kind)

/-! ## Requests -/

/-- The request removes entries and returns them. -/
def Request.isRemoval : Request → Bool
  | evictDead _ | removePeer _ | removeFrom .. | removeWhere _ => true
  | _ => false

/-- The entries that an answer has. -/
def Answer.returned : Answer → List Entry
  | entries es => es
  | _ => []

namespace Service

/-- The entries that a request removes and returns. -/
def removedBy (key : Identifier → UInt64) (s : Service) (r : Request) : List Entry :=
  if r.isRemoval then (s.handle key r).2.returned else []

/-- The entries that the requests of a run remove and return. -/
def removed (key : Identifier → UInt64) (s : Service) : List Request → List Entry
  | [] => []
  | r :: rs => s.removedBy key r ++ (s.handle key r).1.removed key rs

/-- The counters of a node that was notified `notified` times, and from which
    `removed` entries were removed on request. -/
structure Balances (s : Service) (notified removed : Nat) : Prop where
  outcomes : s.engine.counters.considered + s.engine.counters.skipped = notified
  entries : s.tables.totalEntries + s.engine.counters.evicted + removed = s.engine.counters.admitted

variable {key : Identifier → UInt64} {c : Config} {self : Identifier} {s : Service}
  {notified gone : Nat}

theorem balances_fresh (node : NodeRecord) (c : Config) (entropy : WordStream)
    (now : Timestamp) : Balances ⟨.fresh node c entropy, now⟩ 0 0 := ⟨rfl, rfl⟩

section
variable (s : Service) (key : Identifier → UInt64) {r : Request}

/-- Only removals and notifications change the number of entries. -/
theorem totalEntries_edit (hr : r.peers = []) (hedit : r.isRemoval = false) :
    (s.handle key r).1.tables.totalEntries = s.tables.totalEntries := by
  cases r with
  | notify id address => cases hr
  | recoveryReply peers =>
    rw [show peers = [] from hr]
    rfl
  | setTime now => rfl
  | recordPong hash => exact s.tables.totalEntries_updateEntries hash _
  | recordMissedPong hash => exact s.tables.totalEntries_updateEntries hash _
  | setEnabled hash enabled => exact s.tables.totalEntries_updateEntries hash _
  | updateAddress id address => exact s.tables.totalEntries_updateAddress (.keyed key id address)
  | setEnabledIn kind hash enabled => exact s.tables.totalEntries_set_modify kind hash _
  | setAllEnabled enabled => exact s.tables.totalEntries_updateAll _
  | setData kind hash k value =>
    rw [handle, setData, RoutingTable.setData?_eq]
    cases (s.tables.get kind).get? hash with
    | none => rfl
    | some e => exact s.tables.totalEntries_set_modify kind hash _
  | _ => cases hedit

variable {s}

/-- A removal takes away the entries that it returns. -/
theorem totalEntries_removal (hw : ∀ kind, (s.tables.get kind).WellFormed)
    (hremoval : r.isRemoval = true) : (s.handle key r).1.tables.totalEntries +
      (s.handle key r).2.returned.length = s.tables.totalEntries := by
  cases r with
  | evictDead threshold => exact RoutingTable.totalEntries_removeWhere hw _
  | removeWhere p => exact RoutingTable.totalEntries_removeWhere hw p
  | removePeer hash => exact RoutingTable.totalEntries_removePeer hw hash
  | removeFrom kind hash =>
    have hset := RoutingTable.totalEntries_set ((hw kind).size_remove_add hash)
    exact hset
  | _ => cases hremoval

theorem totalEntries_quiet (hw : ∀ kind, (s.tables.get kind).WellFormed) (hr : r.peers = []) :
    (s.handle key r).1.tables.totalEntries + (s.removedBy key r).length =
      s.tables.totalEntries := by
  unfold removedBy
  split
  · rename_i hremoval
    exact totalEntries_removal key hw hremoval
  · rename_i hedit
    exact s.totalEntries_edit key hr (by simpa using hedit)

end

theorem Balances.quiet (hb : s.Balances notified gone) (h : Reachable key c self s) {r : Request}
    (hr : r.peers = []) :
    (s.handle key r).1.Balances notified (gone + (s.removedBy key r).length) := by
  have htotal := totalEntries_quiet key h.invariant.wellFormed hr
  have houtcomes := hb.outcomes
  have hentries := hb.entries
  constructor <;> rw [s.engine_handle hr] <;> dsimp only <;> omega

/-- **A notification is counted**, and so are the entries that come and go. -/
theorem Balances.notify (hb : s.Balances notified gone) (h : Reachable key c self s)
    (id : Identifier) (address : Address) :
    (s.handle key (.notify id address)).1.Balances (notified + 1) gone := by
  have houtcomes := hb.outcomes
  have hentries := hb.entries
  have hw := h.invariant.wellFormed
  change Balances ⟨(s.engine.notify (.keyed key id address) s.now).1, s.now⟩ _ _
  have hends := s.engine.notify_ends (.keyed key id address) s.now
  cases hout : (s.engine.notify (.keyed key id address) s.now).2 with
  | skipped reason =>
    obtain ⟨recent, -, heq⟩ := Engine.notify_skipped hout
    rw [heq]
    constructor
    · dsimp only [Counters.record]
      omega
    · exact hentries
  | processed report =>
    obtain ⟨-, -, standing, -, -, hplaces⟩ := Engine.notify_processed hout
    have htotal := hplaces.totalEntries fun kind =>
      (hw kind).edits (RoutingTable.edits_updateAddress _ (hw kind))
    dsimp only at htotal
    rw [RoutingTable.totalEntries_updateAddress] at htotal
    have hcounters := hends.counters
    rw [hout] at hcounters
    constructor
    · dsimp only
      rw [hcounters, Counters.record]
      dsimp only
      omega
    · dsimp only [tables] at hentries ⊢
      rw [hcounters, Counters.record]
      dsimp only
      omega

theorem Balances.handle (hb : s.Balances notified gone) (h : Reachable key c self s)
    (r : Request) : (s.handle key r).1.Balances (notified + r.peers.length)
      (gone + (s.removedBy key r).length) := by
  by_cases hr : r.peers = []
  · rw [hr]
    exact hb.quiet h hr
  cases r with
  | notify id address => exact hb.notify h id address
  | recoveryReply peers =>
    clear hr
    induction peers generalizing s notified with
    | nil => exact hb
    | cons p peers ih =>
      have hrest := ih (hb.notify h p.1 p.2) (h.handle (.notify p.1 p.2))
      rw [Request.peers, List.length_cons]
      rw [Request.peers, Nat.add_assoc, Nat.add_comm 1] at hrest
      exact hrest
  | _ => exact absurd rfl hr

theorem Balances.run (hb : s.Balances notified gone) (h : Reachable key c self s)
    (rs : List Request) : (s.run key rs).Balances (notified + (rs.flatMap Request.peers).length)
      (gone + (s.removed key rs).length) := by
  induction rs generalizing s notified gone with
  | nil => exact hb
  | cons r rs ih =>
    have hrest := ih (hb.handle h r) (h.handle r)
    rw [List.flatMap_cons, List.length_append, removed, List.length_append, ← Nat.add_assoc,
      ← Nat.add_assoc]
    exact hrest

/-- **The books of a node are balanced after every run**: its outcomes are as
    many as the peers that the requests brought, and its tables have the entries
    that were admitted, less those that had to go and those that were removed on
    request. -/
theorem run_balances {address : Address} {entropy : WordStream} {now : Timestamp}
    (h : Service.create (.keyed key self address) c entropy now = .ok s) (rs : List Request) :
    (s.run key rs).Balances (rs.flatMap Request.peers).length (s.removed key rs).length ∧
      (s.run key rs).tables.totalEntries = (s.run key rs).tables.allEntries.length := by
  have hstart : Reachable key c self s := .create h
  obtain ⟨-, rfl⟩ := create_ok_iff.1 h
  have hrun := (balances_fresh (.keyed key self address) c entropy now).run hstart rs
  rw [Nat.zero_add, Nat.zero_add] at hrun
  exact ⟨hrun, RoutingTable.totalEntries_eq_length (hstart.run rs).invariant.wellFormed⟩

/-- Four peers, of which one is the node and one has to go, and a removal. -/
theorem run_balances_removal :
    let peer (k : Nat) : Identifier := .ofFn (.mk 2 4) (· == k)
    let rs : List Request := [.notify (peer 4) "10.0.0.2:7000",
      .recoveryReply [(peer 5, "10.0.0.3:7000"), (.zero (.mk 2 4), "10.0.0.1:7000"),
        (peer 7, "10.0.0.4:7000")],
      .removePeer (Identifier.hash (peer 4))]
    ∃ s, Service.create (.keyed Identifier.hash (.zero (.mk 2 4)) "10.0.0.1:7000")
        { Config.small with nsSize := 1 } (.ofSeed 7) (.ofMillis 0) = .ok s ∧
      (s.run Identifier.hash rs).engine.counters = ⟨3, 1, 5, 1⟩ ∧
      (s.run Identifier.hash rs).Balances 4 1 ∧
      (s.run Identifier.hash rs).tables.allEntries.length = 3 := by
  intro peer rs
  have hcreate : Service.create (.keyed Identifier.hash (.zero (.mk 2 4)) "10.0.0.1:7000")
      { Config.small with nsSize := 1 } (.ofSeed 7) (.ofMillis 0) = .ok _ :=
    create_ok_iff.2 ⟨⟨rfl, rfl⟩, rfl⟩
  obtain ⟨hbalances, hentries⟩ := run_balances hcreate rs
  generalize hremoved : (removed Identifier.hash _ rs).length = n at hbalances
  obtain rfl : n = 1 := by
    rw [← hremoved]
    decide +kernel
  refine ⟨_, hcreate, by decide +kernel, hbalances, ?_⟩
  rw [← hentries]
  decide +kernel

end Service

end CubeRouting
