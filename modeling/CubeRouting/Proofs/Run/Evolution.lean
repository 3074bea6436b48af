/-
  How the tables of a node change when it serves a request.

  `Entry.InPlace` is what a node knows about its entries: they are keyed by
  their identifiers, have the distance to the node, and are in a cell of the
  peer that the configuration allows.

  * `notify_leads`: a notification offers peers in their own cells only;
  * `handle_tends`: a request that brings no peers offers none;
  * `handle_leads`: every request offers peers in their own cells only.
-/
import CubeRouting.Proofs.Placement.Cells
import CubeRouting.Proofs.Placement.Notify
import CubeRouting.Run

namespace CubeRouting

/-! ## Entries in their place -/

/-- A cell of the first table of a pair that the peer may be in. -/
def TablePair.HasRt1Cell (pair : TablePair) (leaveToRt2 : Bool) (self peer : Identifier)
    (i : SlotIndex) : Prop :=
  ∃ cells, Cells.compute self peer = .ok cells ∧ i = cells.rt1 ∧
    (pair.useRt1 = true ∨ pair.useRt2 = true ∧ cells.sibling = true) ∧
    (leaveToRt2 = true → cells.rt2Below = none)

/-- A cell of the second table of a pair that the peer may be in. -/
def TablePair.HasRt2Cell (pair : TablePair) (self peer : Identifier) (i : SlotIndex) : Prop :=
  pair.useRt2 = true ∧ ∃ cells, Cells.compute self peer = .ok cells ∧ cells.rt2 = some i

namespace TablePair

variable {pair : TablePair} {leaveToRt2 : Bool} {self peer : Identifier} {cells : Option Cells}
  {candidate : Candidate} {before after : RoutingTable} {first second : Placement} {i : SlotIndex}
  {a : Admission}

section
variable (hp : pair.Places leaveToRt2 cells candidate before after first second)
  (hcells : ∀ x ∈ cells, Cells.compute self peer = .ok x)
include hp hcells

theorem Places.rt1_hasCell (h : first = .considered i a) :
    pair.HasRt1Cell leaveToRt2 self peer i := by
  obtain ⟨x, hx, hi⟩ := hp.rt1_considered i a h
  exact ⟨x, hcells x hx, hi⟩

/-- A bound on the levels does not move a peer. -/
theorem Places.rt2_hasCell (h : second = .considered i a) : pair.HasRt2Cell self peer i := by
  obtain ⟨huse, x, hx, hi⟩ := hp.rt2_considered i a h
  obtain ⟨-, -, -, hdesc⟩ := Cells.describes_of_compute (hcells x hx)
  refine ⟨huse, x, hcells x hx, ?_⟩
  split at hi
  · exact ((hdesc.rt2Below i).1 hi).1
  · exact hi

/-- RT2 takes a peer of RT1 below its RT1 level. -/
theorem Places.rt2_level_lt (h : second = .considered i a) (hholds : first.holdsPeer = true) :
    ∃ x, Cells.compute self peer = .ok x ∧ i.level < x.rt1.level := by
  obtain ⟨-, x, hx, hi⟩ := hp.rt2_considered i a h
  obtain ⟨-, -, -, hdesc⟩ := Cells.describes_of_compute (hcells x hx)
  rw [if_pos hholds] at hi
  exact ⟨x, hcells x hx, ((hdesc.rt2Below i).1 hi).2⟩

end

end TablePair

/-- A cell of a table that the peer may be in. -/
def Config.HasCell (c : Config) (self peer : Identifier) (i : SlotIndex) : TableKind → Prop
  | .ns => c.useNs = true ∧ i = SlotRef.ns.index
  | .rt1 => (TablePair.primary c).HasRt1Cell c.excludeRt2Scope self peer i
  | .rt2 => (TablePair.primary c).HasRt2Cell self peer i
  | .secRt1 => c.useSecure = true ∧ TablePair.secure.HasRt1Cell c.excludeRt2Scope self peer i
  | .secRt2 => c.useSecure = true ∧ TablePair.secure.HasRt2Cell self peer i

/-- An entry of a table that is where its peer belongs. -/
structure Entry.InPlace (key : Identifier → UInt64) (c : Config) (x : Identifier)
    (kind : TableKind) (e : Entry) : Prop where
  hash : e.hash = key e.node.id
  ne_node : e.node.id ≠ x
  shape : e.node.id.shape = x.shape
  distance : c.metric.measure x e.node.id = .ok e.distance
  cell : c.HasCell x e.node.id e.slot.index kind

variable {key : Identifier → UInt64} {c : Config} {self : Identifier} {kind : TableKind}

theorem Entry.InPlace.continues {e e' : Entry} (h : e.InPlace key c self kind)
    (hc : e'.Continues e) : e'.InPlace key c self kind where
  hash := by rw [hc.hash, hc.id, h.hash]
  ne_node := by rw [hc.id]; exact h.ne_node
  shape := by rw [hc.id]; exact h.shape
  distance := by rw [hc.id, hc.distance]; exact h.distance
  cell := by rw [hc.id, hc.slot]; exact h.cell

/-- A candidate offered to a slot where its peer belongs. -/
def Offered (key : Identifier → UInt64) (c : Config) (self : Identifier) (kind : TableKind)
    (candidate : Candidate) (i : SlotIndex) : Prop :=
  (Entry.fresh candidate.node candidate.distance candidate.time ⟨kind, i⟩).InPlace key c self kind

/-! ## All tables -/

namespace RoutingTable

variable {allowed : TableKind → Candidate → SlotIndex → Prop} {t t' t'' : RoutingTable}

/-- Each table evolves. -/
def Evolves (allowed : TableKind → Candidate → SlotIndex → Prop) (t t' : RoutingTable) : Prop :=
  ∀ kind, (t.get kind).Evolves (allowed kind) (t'.get kind)

theorem Evolves.refl (t : RoutingTable) : Evolves allowed t t :=
  fun kind => SubTable.Evolves.refl (t.get kind)

theorem Evolves.trans (h : Evolves allowed t t') (h' : Evolves allowed t' t'') :
    Evolves allowed t t'' := fun kind => (h kind).trans (h' kind)

theorem get_updateEntries (t : RoutingTable) (hash : UInt64) (f : Entry → Option Entry)
    (kind : TableKind) : (t.updateEntries hash f).1.get kind =
      match ((t.get kind).get? hash).bind f with
      | some e => (t.get kind).modify hash fun _ => e
      | none => t.get kind := by
  have hget : (t.updateEntries hash f).1.get kind =
      (match ((t.get kind).get? hash).bind f with
        | some e => ((t.get kind).modify hash fun _ => e, true)
        | none => (t.get kind, false)).1 := by cases kind <;> rfl
  rw [hget]
  split <;> rfl

theorem setData?_eq (t : RoutingTable) (kind : TableKind) (hash : UInt64) (key : String)
    (value : MetaValue) : t.setData? kind hash key value = ((t.get kind).get? hash).map
      fun e => (t.set kind ((t.get kind).modify hash (·.setData key value)), e.data? key) := by
  rw [setData?]
  cases (t.get kind).get? hash <;> rfl

theorem get_updateAll (t : RoutingTable) (f : Entry → Entry) (kind : TableKind) :
    (t.updateAll f).get kind = (t.get kind).modifyAll f := by
  cases kind <;> rfl

theorem get_removePeer (t : RoutingTable) (hash : UInt64) (kind : TableKind) :
    (t.removePeer hash).1.get kind = ((t.get kind).remove hash).1 := by
  cases kind <;> rfl

theorem get_removeWhere (t : RoutingTable) (p : Entry → Bool) (kind : TableKind) :
    (t.removeWhere p).1.get kind = ((t.get kind).removeWhere p).1 := by
  cases kind <;> rfl

theorem evolves_set {s : SubTable} (h : (t.get kind).Evolves (allowed kind) s) :
    t.Evolves allowed (t.set kind s) := by
  intro other
  rw [get_set]
  split
  · rename_i heq
    rwa [heq]
  · exact SubTable.Evolves.refl _

theorem evolves_updateEntries {f : Entry → Option Entry} (hash : UInt64)
    (hf : ∀ e e', f e = some e' → e'.Continues e) :
    t.Evolves allowed (t.updateEntries hash f).1 := by
  intro kind
  rw [get_updateEntries]
  split
  · rename_i e' he'
    refine (SubTable.Step.modify fun e he => ?_).evolves
    rw [he] at he'
    exact hf e e' he'
  · exact SubTable.Evolves.refl _

theorem evolves_updateAll {f : Entry → Entry} (hf : ∀ e, (f e).Continues e) :
    t.Evolves allowed (t.updateAll f) := by
  intro kind
  rw [get_updateAll]
  exact (SubTable.Step.modifyAll hf).evolves

theorem evolves_updateAddress (t : RoutingTable) (peer : NodeRecord) :
    t.Evolves allowed (t.updateAddress peer).1 := by
  refine evolves_updateEntries peer.hash fun e e' he' => ?_
  split at he'
  · cases he'
    exact ⟨rfl, rfl, rfl, rfl, rfl, rfl⟩
  · cases he'

/-- A new address keeps all entries. -/
theorem edits_updateAddress (peer : NodeRecord) (hw : (t.get kind).WellFormed) :
    ((t.updateAddress peer).1.get kind).Edits (t.get kind) := by
  rw [updateAddress, get_updateEntries]
  split
  · rename_i e' he'
    refine hw.edits_modify fun e he => ?_
    rw [he, Option.bind_some] at he'
    split at he'
    · cases he'
      exact ⟨rfl, rfl, rfl, rfl, rfl, rfl⟩
    · cases he'
  · exact SubTable.Edits.refl _

theorem evolves_removePeer (t : RoutingTable) (hash : UInt64) :
    t.Evolves allowed (t.removePeer hash).1 := by
  intro kind
  rw [get_removePeer]
  exact (SubTable.Step.remove hash).evolves

theorem evolves_removeWhere (t : RoutingTable) (p : Entry → Bool) :
    t.Evolves allowed (t.removeWhere p).1 := by
  intro kind
  rw [get_removeWhere]
  exact SubTable.evolves_removeAll _ _

end RoutingTable

/-! ## Notifications -/

/-- The engine changes its tables only, and these evolve by offers of peers in
    their own cells. -/
structure Engine.Leads (key : Identifier → UInt64) (e e' : Engine) : Prop where
  keeps : e'.Keeps e
  tables : e.tables.Evolves (Offered key e.config e.self.id) e'.tables

/-- The engine is keyed as its peers are, and has a policy for the secure tables
    if it fills them. -/
structure Engine.Sane (key : Identifier → UInt64) (e : Engine) : Prop where
  hash : e.self.hash = key e.self.id
  secure : e.securePolicy.isSome = e.config.useSecure

namespace Engine

variable {e e' e'' : Engine}

theorem Leads.refl (e : Engine) : e.Leads key e := ⟨Keeps.refl e, RoutingTable.Evolves.refl _⟩

theorem Leads.trans (h : e.Leads key e') (h' : e'.Leads key e'') : e.Leads key e'' where
  keeps := h'.keeps.trans h.keeps
  tables := by
    have ht := h'.tables
    rw [h.keeps.config, h.keeps.self] at ht
    exact h.tables.trans ht

theorem Sane.keeps (h : e.Sane key) (hk : e'.Keeps e) : e'.Sane key where
  hash := by rw [hk.self]; exact h.hash
  secure := by rw [hk.secure, hk.config]; exact h.secure

/-- **A peer is considered in its own cells only.** -/
theorem Places.hasCell {cells : Option Cells} {candidate : Candidate} {r : Report}
    {self peer : Identifier} (hp : e.Places e' cells candidate r)
    (hsecure : e.securePolicy.isSome = e.config.useSecure)
    (hcells : ∀ x ∈ cells, Cells.compute self peer = .ok x) {i : SlotIndex} {a : Admission}
    (h : r.get kind = .considered i a) : e.config.HasCell self peer i kind := by
  have hsecureCells : ∀ x ∈ e.secureCells cells,
      e.config.useSecure = true ∧ Cells.compute self peer = .ok x := by
    intro x hx
    obtain ⟨huse, hx⟩ := mem_secureCells.1 hx
    exact ⟨hsecure.symm.trans huse, hcells x hx⟩
  cases kind with
  | ns => exact hp.ns_considered i a h
  | rt1 => exact hp.primary.rt1_hasCell hcells h
  | rt2 => exact hp.primary.rt2_hasCell hcells h
  | secRt1 =>
    obtain ⟨x, hx, -⟩ := hp.secure.rt1_considered i a h
    exact ⟨(hsecureCells x hx).1, hp.secure.rt1_hasCell (fun x hx => (hsecureCells x hx).2) h⟩
  | secRt2 =>
    obtain ⟨-, x, hx, -⟩ := hp.secure.rt2_considered i a h
    exact ⟨(hsecureCells x hx).1, hp.secure.rt2_hasCell (fun x hx => (hsecureCells x hx).2) h⟩

/-- **A notification offers peers in their own cells only.** -/
theorem notify_leads (hsane : e.Sane key) (id : Identifier) (address : Address)
    (time : Timestamp) : e.Leads key (e.notify (.keyed key id address) time).1 := by
  generalize hpeer : NodeRecord.keyed key id address = peer
  have hhash : peer.hash = key peer.id := hpeer ▸ rfl
  obtain ⟨-, -, hsame⟩ | ⟨hself, hshape, -, standing, e₀, hstanding, he₀, -, hsame⟩ :=
    e.notify_cases peer time
  · exact ⟨hsame.keeps, by rw [hsame.tables]; exact RoutingTable.Evolves.refl _⟩
  have hp := e₀.places_place peer standing time
  generalize e₀.place peer standing time = r at hp hsame
  have hk₀ : e₀.Keeps e := he₀.keeps.trans ⟨rfl, rfl, rfl⟩
  refine ⟨hsame.keeps.trans (hp.keeps.trans hk₀), ?_⟩
  obtain ⟨hdistance, -, hcells⟩ := Standing.compute_ok hstanding
  have hne : peer.id ≠ e.self.id := fun h => hself (by rw [hhash, h, hsane.hash])
  have hsecure : e₀.securePolicy.isSome = e₀.config.useSecure := by
    rw [hk₀.secure, hk₀.config, hsane.secure]
  have hupdate : ∀ kind, (e.tables.get kind).Evolves (Offered key e.config e.self.id kind)
      (e₀.tables.get kind) := by
    rw [he₀.tables]
    exact RoutingTable.evolves_updateAddress _ _
  rw [hsame.tables]
  intro kind
  refine (hupdate kind).trans ((hp.placed kind).evolves fun i a h => ?_)
  have hcell := hp.hasCell hsecure hcells h
  rw [hk₀.config] at hcell
  exact ⟨hhash, hne, hshape, hdistance, hcell⟩

theorem notifyAll_leads (hsane : e.Sane key) (time : Timestamp)
    (peers : List (Identifier × Address)) :
    e.Leads key (e.notifyAll time (peers.map fun p => .keyed key p.1 p.2)).1 := by
  induction peers generalizing e with
  | nil => exact Leads.refl e
  | cons p peers ih =>
    have h := notify_leads hsane p.1 p.2 time
    exact h.trans (ih (hsane.keeps h.keeps))

end Engine

/-! ## Requests -/

namespace Service

variable {allowed : TableKind → Candidate → SlotIndex → Prop}

/-- The tables evolve and no more than the tables changes. -/
def Tends (allowed : TableKind → Candidate → SlotIndex → Prop) (s s' : Service) : Prop :=
  s'.engine.Keeps s.engine ∧ s.tables.Evolves allowed s'.tables

theorem Tends.refl (s : Service) : s.Tends allowed s :=
  ⟨Engine.Keeps.refl s.engine, RoutingTable.Evolves.refl s.tables⟩

theorem setTables_tends {s : Service} {t : RoutingTable} (h : s.tables.Evolves allowed t) :
    s.Tends allowed (s.setTables t) := ⟨⟨rfl, rfl, rfl⟩, h⟩

/-- A request that brings no peers changes the tables of the engine only. -/
theorem engine_handle (s : Service) {r : Request} (hr : r.peers = []) :
    (s.handle key r).1.engine = { s.engine with tables := (s.handle key r).1.tables } := by
  cases r with
  | notify id address => cases hr
  | recoveryReply peers =>
    rw [show peers = [] from hr]
    rfl
  | setData kind hash k value =>
    cases hset : s.tables.setData? kind hash k value with
    | none =>
      rw [handle, setData, hset]
      rfl
    | some r =>
      rw [handle, setData, hset]
      rfl
  | _ => rfl

/-- **A request that brings no peers** only edits and removes entries. -/
theorem handle_tends (s : Service) {r : Request} (hr : r.peers = []) :
    s.Tends allowed (s.handle key r).1 := by
  cases r with
  | setTime now => exact Tends.refl s
  | notify id address => cases hr
  | recoveryReply peers =>
    rw [show peers = [] from hr]
    exact Tends.refl s
  | recordPong hash =>
    refine setTables_tends (RoutingTable.evolves_updateEntries hash fun e e' he' => ?_)
    cases he'
    exact ⟨rfl, rfl, rfl, rfl, rfl, rfl⟩
  | recordMissedPong hash =>
    refine setTables_tends (RoutingTable.evolves_updateEntries hash fun e e' he' => ?_)
    cases he'
    exact ⟨rfl, rfl, rfl, rfl, rfl, rfl⟩
  | evictDead threshold => exact setTables_tends (RoutingTable.evolves_removeWhere _ _)
  | removePeer hash => exact setTables_tends (RoutingTable.evolves_removePeer _ _)
  | removeFrom kind hash =>
    exact setTables_tends (RoutingTable.evolves_set (SubTable.Step.remove hash).evolves)
  | removeWhere p => exact setTables_tends (RoutingTable.evolves_removeWhere _ _)
  | setEnabled hash enabled =>
    refine setTables_tends (RoutingTable.evolves_updateEntries hash fun e e' he' => ?_)
    split at he'
    · cases he'
    · cases he'
      exact ⟨rfl, rfl, rfl, rfl, rfl, rfl⟩
  | setEnabledIn kind hash enabled =>
    refine setTables_tends (RoutingTable.evolves_set (SubTable.Step.modify fun e _ => ?_).evolves)
    exact ⟨rfl, rfl, rfl, rfl, rfl, rfl⟩
  | setAllEnabled enabled =>
    exact setTables_tends (RoutingTable.evolves_updateAll fun e => ⟨rfl, rfl, rfl, rfl, rfl, rfl⟩)
  | setData kind hash k value =>
    simp only [handle, setData, RoutingTable.setData?_eq]
    cases (s.tables.get kind).get? hash with
    | none => exact Tends.refl s
    | some e =>
      refine setTables_tends (RoutingTable.evolves_set (SubTable.Step.modify fun e _ => ?_).evolves)
      exact ⟨rfl, rfl, rfl, rfl, rfl, rfl⟩
  | updateAddress id address => exact setTables_tends (RoutingTable.evolves_updateAddress _ _)

/-- **A request leads from tables to tables**: entries are edited and removed,
    and peers are offered in their own cells only. -/
theorem handle_leads (s : Service) (hsane : s.engine.Sane key) (r : Request) :
    s.engine.Leads key (s.handle key r).1.engine := by
  by_cases hr : r.peers = []
  · obtain ⟨hkeeps, htables⟩ := s.handle_tends hr
    exact ⟨hkeeps, htables⟩
  · cases r with
    | notify id address => exact Engine.notify_leads hsane id address s.now
    | recoveryReply peers => exact Engine.notifyAll_leads hsane s.now peers
    | _ => exact absurd rfl hr

end Service

end CubeRouting
