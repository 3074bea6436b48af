/-
  Notifications of unrelated peers commute.

  A notification writes to the cells of its peer, and what comes of the peer in
  RT1 and RT2 depends on these cells.  The other tables, the time and the other
  peers do not count, as long as no hash is that of two peers.

  * `Reachable.slot_sight`: the slots that a notification leaves as they were;
  * `Reachable.looksLike_sight`: nodes that look the same to a peer place it in
    the same way;
  * `Reachable.notifies_commute`: two notifications in either order.
-/
import CubeRouting.Proofs.Placement.Locality
import CubeRouting.Proofs.Run.Neighborhood
import CubeRouting.Proofs.Run.Repetition

namespace CubeRouting

variable {key : Identifier → UInt64} {c : Config} {self : Identifier} {s s' : Service}
  {kind : TableKind} {i : SlotIndex}

/-! ## Peers apart -/

namespace Identifier

/-- The cells of a peer, if it has any. -/
def cells? (self id : Identifier) : Option Cells := (Cells.compute self id).toOption

/-- Two peers have no cell of RT1 or RT2 in common. -/
def Apart (self p q : Identifier) : Prop :=
  ∀ x ∈ self.cells? p, ∀ y ∈ self.cells? q, x.rt1 ≠ y.rt1 ∧ ∀ i ∈ x.rt2, y.rt2 ≠ some i

variable {p q : Identifier} {x : Cells}

instance : Decidable (self.Apart p q) :=
  inferInstanceAs (Decidable (∀ x ∈ self.cells? p, ∀ y ∈ self.cells? q, _))

theorem mem_cells? : x ∈ self.cells? p ↔ Cells.compute self p = .ok x := by
  unfold cells?
  cases Cells.compute self p with
  | error fault => exact iff_of_false (fun h => by cases h) fun h => by cases h
  | ok y => exact Option.some_inj.trans ⟨fun h => h ▸ rfl, fun h => Except.ok.inj h⟩

namespace Apart

theorem symm (h : self.Apart p q) : self.Apart q p := by
  intro y hy x hx
  obtain ⟨h₁, h₂⟩ := h x hx y hy
  exact ⟨h₁.symm, fun i hi hi' => h₂ i hi' hi⟩

section
variable (h : self.Apart p q) (hx : x ∈ self.cells? p)
include h hx

theorem rt1 : ¬c.HasCell self q x.rt1 .rt1 := by
  rintro ⟨y, hy, heq, -⟩
  exact (h x hx y (mem_cells?.2 hy)).1 heq

theorem rt2 (hi : x.rt2 = some i) : ¬c.HasCell self q i .rt2 := by
  rintro ⟨-, y, hy, hi'⟩
  exact (h x hx y (mem_cells?.2 hy)).2 i hi hi'

end

theorem not_hasCell (h : self.Apart p q) (hkind : kind ∈ [TableKind.rt1, .rt2])
    (hi : c.HasCell self p i kind) : ¬c.HasCell self q i kind := by
  rcases List.mem_pair.1 hkind with rfl | rfl
  · obtain ⟨x, hx, rfl, -⟩ := hi
    exact h.rt1 (mem_cells?.2 hx)
  · obtain ⟨-, x, hx, hrt2⟩ := hi
    exact h.rt2 (mem_cells?.2 hx) hrt2

end Apart

end Identifier

/-! ## Other peers -/

/-- **A notification is local**: it leaves the slots that are no cells of its
    peer. -/
theorem Reachable.slot_sight (h : Reachable key c self s) {x : Sighting}
    (hi : ¬c.HasCell self x.id i kind) :
    ((s.sight key x).tables.get kind).slot i = (s.tables.get kind).slot i := by
  have hinv := h.invariant
  cases hp : (s.engine.notify (.keyed key x.id x.address) x.time).2 with
  | skipped reason =>
    obtain ⟨recent, -, hskip⟩ := Engine.notify_skipped hp
    rw [Service.sight, hskip]
    rfl
  | processed report =>
    obtain ⟨-, -, standing, hstanding, -, hplaces⟩ := Engine.notify_processed hp
    obtain ⟨-, -, hcells⟩ := Standing.compute_ok hstanding
    have hmoved := (h.handle (.updateAddress x.id x.address)).invariant.wellFormed kind
    refine (((hplaces.placed kind).tells hmoved).slot_eq fun j a hj hij => hi ?_).trans ?_
    · have hcell := hplaces.hasCell hinv.sane.secure hcells hj
      rw [hij, ← hinv.config_eq, ← hinv.self_id]
      exact hcell
    · refine (RoutingTable.slot_updateAddress (hinv.wellFormed kind) _ i).trans
        (SubTable.map_eq_self_of_forall fun e he => if_neg fun hown => hi ?_)
      have hcell := hinv.hasCell he
      rwa [show e.node.id = x.id from hown.2] at hcell

/-- No entry of another peer has the hash of a peer. -/
def Service.Distinguishes (key : Identifier → UInt64) (s : Service) (id : Identifier) : Prop :=
  ∀ kind, ∀ e ∈ (s.tables.get kind).entries, e.hash = key id → e.node.id = id

theorem Reachable.distinguishes_sight (h : Reachable key c self s) {x : Sighting}
    {id : Identifier} (hne : key id ≠ key x.id) (hid : s.Distinguishes key id) :
    (s.sight key x).Distinguishes key id := by
  intro kind e he hh
  cases hp : (s.engine.notify (.keyed key x.id x.address) x.time).2 with
  | skipped reason =>
    obtain ⟨recent, -, hskip⟩ := Engine.notify_skipped hp
    rw [Service.sight, hskip] at he
    exact hid kind e he hh
  | processed report =>
    obtain ⟨e₀, he₀, hnode⟩ := h.exists_node_eq hp he (hh.trans_ne hne)
    rw [Entry.hash, hnode] at hh
    rw [hnode]
    exact hid kind e₀ he₀ hh

/-! ## What decides about a peer -/

/-- A peer is stored in its cells. -/
theorem Reachable.contains_congr (h : Reachable key c self s) (h' : Reachable key c self s')
    {id : Identifier} (hid : s.Distinguishes key id) (hid' : s'.Distinguishes key id)
    (hslot : ∀ i, c.HasCell self id i kind →
      (s'.tables.get kind).slot i = (s.tables.get kind).slot i) :
    (s'.tables.get kind).contains (key id) = (s.tables.get kind).contains (key id) := by
  have hinv := h.invariant
  have hinv' := h'.invariant
  rw [Bool.eq_iff_iff, (hinv.wellFormed kind).contains_iff, (hinv'.wellFormed kind).contains_iff]
  simp only [SubTable.mem_entries]
  constructor
  · rintro ⟨e, ⟨i, he⟩, hh⟩
    have hcell := hinv'.hasCell he
    rw [hid' kind e (SubTable.mem_entries.2 ⟨i, he⟩) hh] at hcell
    rw [hslot i hcell] at he
    exact ⟨e, ⟨i, he⟩, hh⟩
  · rintro ⟨e, ⟨i, he⟩, hh⟩
    have hcell := hinv.hasCell he
    rw [hid kind e (SubTable.mem_entries.2 ⟨i, he⟩) hh] at hcell
    rw [← hslot i hcell] at he
    exact ⟨e, ⟨i, he⟩, hh⟩

/-- Nodes look the same to a peer before and after a notification of another
    one that has no cell in common. -/
theorem Reachable.looksLike_of_apart (h : Reachable key c self s)
    (hrt : c.rtPolicy = .simple ∨ c.rtPolicy = .distance) {id : Identifier} {y : Sighting}
    (hne : key id ≠ key y.id) (hid : s.Distinguishes key id) (hapart : self.Apart id y.id) :
    (s.sight key y).engine.LooksLike s.engine (key id) (self.cells? id) := by
  have hafter := h.sight y
  have hkeeps := s.engine.keeps_notify (.keyed key y.id y.address) y.time
  have hgrid : ∀ kind, ((s.sight key y).tables.get kind).SameGrid (s.tables.get kind) :=
    fun kind => (hafter.invariant.grid kind).trans (h.invariant.grid kind).symm
  have hcontains : ∀ kind ∈ [TableKind.rt1, .rt2],
      ((s.sight key y).tables.get kind).contains (key id) =
        (s.tables.get kind).contains (key id) := fun kind hkind =>
    h.contains_congr hafter hid (h.distinguishes_sight hne hid) fun i hi =>
      h.slot_sight (hapart.not_hasCell hkind hi)
  refine ⟨hkeeps.self, hkeeps.config, ?_, ?_, ?_⟩
  · refine ⟨(hgrid .rt1).kind, (hgrid .rt1).capacity, hcontains .rt1 (by simp), ?_⟩
    rintro i ⟨x, hx, rfl⟩
    exact h.slot_sight (hapart.rt1 hx)
  · refine ⟨(hgrid .rt2).kind, (hgrid .rt2).capacity, hcontains .rt2 (by simp), ?_⟩
    rintro i ⟨x, hx, hi⟩
    exact h.slot_sight (hapart.rt2 hx hi)
  · exact (hafter.rtPolicy_eq hrt).trans (h.rtPolicy_eq hrt).symm

/-! ## The gate -/

/-- Why a node refuses a peer whatever its tables have. -/
def Identifier.refusal? (key : Identifier → UInt64) (self id : Identifier) : Option SkipReason :=
  if key id = key self then some .selfNotification
  else if id.shape ≠ self.shape then some .shapeMismatch
  else none

theorem Identifier.refusal?_eq_none {id : Identifier} :
    refusal? key self id = none ↔ key id ≠ key self ∧ id.shape = self.shape := by
  unfold refusal?
  split
  · rename_i hself
    exact iff_of_false nofun fun h => h.1 hself
  split
  · rename_i hshape
    exact iff_of_false nofun fun h => hshape h.2
  · rename_i hself hshape
    exact iff_of_true rfl ⟨hself, not_not.1 hshape⟩

theorem Reachable.notify_refused (h : Reachable key c self s) {id : Identifier}
    {reason : SkipReason} (hr : Identifier.refusal? key self id = some reason)
    (address : Address) (time : Timestamp) :
    (s.engine.notify (.keyed key id address) time).2 = .skipped reason := by
  have hinv := h.invariant
  rw [Identifier.refusal?, ← hinv.self_id, ← hinv.sane.hash] at hr
  unfold Engine.notify
  split at hr
  · rename_i hself
    cases hr
    rw [if_pos (show (NodeRecord.keyed key id address).hash = _ from hself)]
    rfl
  rename_i hself
  rw [if_neg (show (NodeRecord.keyed key id address).hash ≠ _ from hself)]
  split at hr
  · rename_i hshape
    cases hr
    rw [if_pos (show (NodeRecord.keyed key id address).id.shape ≠ _ from hshape)]
    rfl
  · cases hr

/-- A peer that is told apart is not in conflict. -/
theorem Engine.conflict?_eq_none_of_id {e : Engine} {peer : NodeRecord}
    (hw : ∀ kind, (e.tables.get kind).WellFormed) (hupdate : e.config.updateAddresses = true)
    (h : ∀ kind, ∀ x ∈ (e.tables.get kind).entries, x.hash = peer.hash → x.node.id = peer.id) :
    e.conflict? peer = none := by
  have hid : ((e.tables.entriesOf peer.hash).any fun x => x.node.id ≠ peer.id) = false :=
    RoutingTable.any_entriesOf_eq_false hw fun kind x hx hhash => by simp [h kind x hx hhash]
  rw [conflict?, hid, hupdate, Bool.not_true, Bool.and_false]
  rfl

section
variable (h : Reachable key c self s) (hretention : c.retention = 0)
  (hupdate : c.updateAddresses = true) {x : Sighting} (hid : s.Distinguishes key x.id)
include h hretention hupdate hid

/-- **A peer that is told apart is placed** unless the node refuses it. -/
theorem Reachable.notify_placed (hr : Identifier.refusal? key self x.id = none) :
    ∃ (standing : Standing) (e₀ : Engine),
      Standing.compute c self x.id = .ok standing ∧
      e₀.SameState { s.engine with
        tables := (s.tables.updateAddress (.keyed key x.id x.address)).1 } ∧
      (s.engine.notify (.keyed key x.id x.address) x.time).2 =
        .processed (e₀.place (.keyed key x.id x.address) standing x.time).2 ∧
      (s.sight key x).engine.SameState
        (e₀.place (.keyed key x.id x.address) standing x.time).1 := by
  have hinv := h.invariant
  obtain ⟨hself, hshape⟩ := Identifier.refusal?_eq_none.1 hr
  have hpasses : s.engine.Passes (.keyed key x.id x.address) x.time := by
    constructor
    case other =>
      rw [hinv.sane.hash, hinv.self_id]
      exact hself
    case shape => rwa [hinv.self_id]
    case free =>
      rw [h.inFlight_eq]
      rfl
    case notRecent => rw [Engine.checkRecent, h.recent_eq_none hretention]
    case noConflict =>
      exact Engine.conflict?_eq_none_of_id hinv.wellFormed (by rw [hinv.config_eq, hupdate]) hid
  have hplace : ∃ standing, Standing.compute c self x.id = .ok standing :=
    Standing.exists_compute hshape.symm (fun heq => hself (by rw [heq])) h.dimensions_lt
  rw [← hinv.config_eq, ← hinv.self_id] at hplace ⊢
  obtain ⟨report, hprocessed⟩ := (s.engine.notify_gate (.keyed key x.id x.address) x.time
    fun _ _ => hplace).2.2 hpasses
  obtain ⟨reason, hskip, -⟩ | ⟨-, -, -, hcases⟩ :=
    s.engine.notify_cases (.keyed key x.id x.address) x.time
  · rw [hskip] at hprocessed
    cases hprocessed
  · exact hcases

end

/-! ## Nodes that look the same -/

/-- What RT1 and RT2 do with a peer that is seen, or why it is skipped. -/
def Service.route (key : Identifier → UInt64) (s : Service) (x : Sighting) :
    Except SkipReason (Placement × Placement) :=
  match (s.engine.notify (.keyed key x.id x.address) x.time).2 with
  | .processed report => .ok (report.rt1, report.rt2)
  | .skipped reason => .error reason

variable {hash : UInt64} {own : Option Cells}

theorem RoutingTable.looksLike_updateAddress {t t' : RoutingTable} {slots : Set SlotIndex}
    (hw : (t.get kind).WellFormed) (hw' : (t'.get kind).WellFormed)
    (h : (t'.get kind).LooksLike (t.get kind) hash slots) (peer : NodeRecord) :
    ((t'.updateAddress peer).1.get kind).LooksLike ((t.updateAddress peer).1.get kind)
      hash slots := by
  have hed := edits_updateAddress peer hw
  have hed' := edits_updateAddress peer hw'
  constructor
  case kind => rw [hed.grid.kind, hed'.grid.kind, h.kind]
  case capacity => rw [hed.grid.capacity, hed'.grid.capacity, h.capacity]
  case contains => rw [hed.contains_eq, hed'.contains_eq, h.contains]
  case slot =>
    intro i hi
    rw [slot_updateAddress hw, slot_updateAddress hw', h.slot i hi]

namespace Engine.LooksLike

variable {e e' f f' : Engine}

theorem congr (h : e'.LooksLike e hash own) (hf : f.SameState e) (hf' : f'.SameState e') :
    f'.LooksLike f hash own where
  self := by rw [hf.self, hf'.self, h.self]
  config := by rw [hf.config, hf'.config, h.config]
  pair := by
    rw [hf.config]
    exact h.pair.congr (fun _ _ => by rw [hf.tables]) (fun _ _ => by rw [hf'.tables])
      hf.rtPolicy hf'.rtPolicy

theorem updateAddress (h : e'.LooksLike e hash own) (hw : ∀ kind, (e.tables.get kind).WellFormed)
    (hw' : ∀ kind, (e'.tables.get kind).WellFormed) (peer : NodeRecord) :
    Engine.LooksLike { e' with tables := (e'.tables.updateAddress peer).1 }
      { e with tables := (e.tables.updateAddress peer).1 } hash own where
  self := h.self
  config := h.config
  pair :=
    { rt1 := RoutingTable.looksLike_updateAddress (hw .rt1) (hw' .rt1) h.pair.rt1 peer
      rt2 := RoutingTable.looksLike_updateAddress (hw .rt2) (hw' .rt2) h.pair.rt2 peer
      policy := h.pair.policy }

theorem slot_eq {id : Identifier} (h : e'.LooksLike e hash (self.cells? id))
    (hkind : kind ∈ [TableKind.rt1, .rt2]) (hi : c.HasCell self id i kind) :
    (e'.tables.get kind).slot i = (e.tables.get kind).slot i := by
  rcases List.mem_pair.1 hkind with rfl | rfl
  · obtain ⟨x, hx, rfl, -⟩ := hi
    exact h.pair.rt1.slot _ ⟨x, Identifier.mem_cells?.2 hx, rfl⟩
  · obtain ⟨-, x, hx, hrt2⟩ := hi
    exact h.pair.rt2.slot _ ⟨x, Identifier.mem_cells?.2 hx, hrt2⟩

end Engine.LooksLike

section
variable (hretention : c.retention = 0) (hupdate : c.updateAddresses = true)
include hretention hupdate

/-- A peer that the node does not refuse is placed. -/
theorem Reachable.exists_route (h : Reachable key c self s) {x : Sighting}
    (hid : s.Distinguishes key x.id) (hself : key x.id ≠ key self)
    (hshape : x.id.shape = self.shape) : ∃ placements, s.route key x = .ok placements := by
  obtain ⟨standing, e₀, -, -, hout, -⟩ := h.notify_placed hretention hupdate hid
    (Identifier.refusal?_eq_none.2 ⟨hself, hshape⟩)
  rw [Service.route, hout]
  exact ⟨_, rfl⟩

/-- **Nodes that look the same to a peer place it in the same way**, and look the
    same to it afterwards. -/
theorem Reachable.looksLike_sight (h : Reachable key c self s) (h' : Reachable key c self s')
    {x : Sighting} (hid : s.Distinguishes key x.id) (hid' : s'.Distinguishes key x.id)
    (hlike : s'.engine.LooksLike s.engine (key x.id) (self.cells? x.id)) :
    s'.route key x = s.route key x ∧
      (s'.sight key x).engine.LooksLike (s.sight key x).engine (key x.id) (self.cells? x.id) := by
  have hw : ∀ kind, (s.tables.get kind).WellFormed := h.invariant.wellFormed
  have hw' : ∀ kind, (s'.tables.get kind).WellFormed := h'.invariant.wellFormed
  cases hr : Identifier.refusal? key self x.id with
  | some reason =>
    have hskip := h.notify_refused hr x.address x.time
    have hskip' := h'.notify_refused hr x.address x.time
    obtain ⟨recent, -, heq⟩ := Engine.notify_skipped hskip
    obtain ⟨recent', -, heq'⟩ := Engine.notify_skipped hskip'
    rw [Service.route, Service.route, hskip, hskip', Service.sight, Service.sight, heq, heq']
    exact ⟨rfl, hlike.congr ⟨rfl, rfl, rfl, rfl, rfl, rfl⟩ ⟨rfl, rfl, rfl, rfl, rfl, rfl⟩⟩
  | none =>
    obtain ⟨standing, e₀, hstanding, he₀, hout, hsame⟩ := h.notify_placed hretention hupdate hid hr
    obtain ⟨standing', e₀', hstanding', he₀', hout', hsame'⟩ :=
      h'.notify_placed hretention hupdate hid' hr
    obtain rfl : standing' = standing := Except.ok.inj (hstanding'.symm.trans hstanding)
    obtain ⟨-, -, hcells⟩ := Standing.compute_ok hstanding
    have hlike₀ : e₀'.LooksLike e₀ (NodeRecord.keyed key x.id x.address).hash (self.cells? x.id) :=
      (hlike.updateAddress hw hw' (.keyed key x.id x.address)).congr he₀ he₀'
    have hw₀ : ∀ kind, (e₀.tables.get kind).WellFormed := by
      intro kind
      rw [he₀.tables]
      exact (h.handle (.updateAddress x.id x.address)).invariant.wellFormed kind
    have hw₀' : ∀ kind, (e₀'.tables.get kind).WellFormed := by
      intro kind
      rw [he₀'.tables]
      exact (h'.handle (.updateAddress x.id x.address)).invariant.wellFormed kind
    obtain ⟨⟨hrt1, hrt2⟩, hafter⟩ := Engine.looksLike_place (fun kind _ => hw₀ kind)
      (fun kind _ => hw₀' kind) hlike₀ x.time fun y hy => by
        obtain ⟨-, -, -, hdesc⟩ := Cells.describes_of_compute (hcells y hy)
        exact ⟨Identifier.mem_cells?.2 (hcells y hy), fun i hi => ((hdesc.rt2Below i).1 hi).1⟩
    rw [Service.route, Service.route, hout, hout']
    dsimp only
    rw [hrt1, hrt2]
    exact ⟨rfl, hafter.congr hsame hsame'⟩

/-! ## Two notifications -/

variable (h : Reachable key c self s) (hrt : c.rtPolicy = .simple ∨ c.rtPolicy = .distance)
  {p q : Sighting} (hpq : key p.id ≠ key q.id) (hp : s.Distinguishes key p.id)
  (hapart : self.Apart p.id q.id)
include h hrt hpq hp hapart

/-- **A peer is placed in the same way after another one** that has no cell in
    common with it. -/
theorem Reachable.looksLike_after :
    (s.sight key q).route key p = s.route key p ∧
      ((s.sight key q).sight key p).engine.LooksLike (s.sight key p).engine (key p.id)
        (self.cells? p.id) :=
  h.looksLike_sight hretention hupdate (h.sight q) hp (h.distinguishes_sight hpq hp)
    (h.looksLike_of_apart hrt hpq hp hapart)

/-- Slots that are no cells of the second peer. -/
theorem Reachable.slot_comm (hkind : kind ∈ [TableKind.rt1, .rt2])
    (hi : ¬c.HasCell self q.id i kind) :
    (((s.sight key p).sight key q).tables.get kind).slot i =
      (((s.sight key q).sight key p).tables.get kind).slot i := by
  rw [(h.sight p).slot_sight hi]
  by_cases hown : c.HasCell self p.id i kind
  · obtain ⟨-, hlike⟩ := h.looksLike_after hretention hupdate hrt hpq hp hapart
    exact (hlike.slot_eq hkind hown).symm
  · rw [h.slot_sight hown, (h.sight q).slot_sight hown, h.slot_sight hi]

/-- **Notifications of unrelated peers commute.**  In a node without a memory of
    recent peers that updates addresses and has a plain policy of RT1 and RT2,
    two peers whose hashes are theirs alone and which have no cell in common are
    placed in RT1 and RT2 in the same way in either order, and leave the same
    two tables.  A peer other than the node that has its shape is placed. -/
theorem Reachable.notifies_commute (hq : s.Distinguishes key q.id) :
    (∀ kind ∈ [TableKind.rt1, .rt2],
      ((s.sight key p).sight key q).tables.get kind =
        ((s.sight key q).sight key p).tables.get kind) ∧
    (s.sight key q).route key p = s.route key p ∧
    (s.sight key p).route key q = s.route key q ∧
    ∀ x ∈ [p, q], key x.id ≠ key self → x.id.shape = self.shape →
      ∃ placements, s.route key x = .ok placements := by
  refine ⟨fun kind hkind => ?_, (h.looksLike_after hretention hupdate hrt hpq hp hapart).1,
    (h.looksLike_after hretention hupdate hrt hpq.symm hq hapart.symm).1, fun x hx => ?_⟩
  · have hpq₂ := ((h.sight p).sight q).invariant
    have hqp₂ := ((h.sight q).sight p).invariant
    refine (hqp₂.wellFormed kind).eq_of_slots (hpq₂.wellFormed kind)
      ((hpq₂.grid kind).trans (hqp₂.grid kind).symm) fun i => ?_
    by_cases hi : c.HasCell self q.id i kind
    · exact (h.slot_comm hretention hupdate hrt hpq.symm hq hapart.symm hkind
        (hapart.symm.not_hasCell hkind hi)).symm
    · exact h.slot_comm hretention hupdate hrt hpq hp hapart hkind hi
  · rcases List.mem_pair.1 hx with rfl | rfl
    · exact h.exists_route hretention hupdate hp
    · exact h.exists_route hretention hupdate hq

end

/-- Two peers at one distance, of which the neighborhood set keeps the first. -/
theorem notifies_commute_equidistantPeers :
    let c := { Config.small with nsSize := 1 }
    let peer (a b : Nat) : Identifier := .ofFn (.mk 2 4) fun k => k == a || k == b
    let p : Sighting := ⟨peer 0 2, "10.0.0.2:7000", .ofMillis 5⟩
    let q : Sighting := ⟨peer 1 3, "10.0.0.3:7000", .ofMillis 9⟩
    ∃ s, Reachable Identifier.hash c (.zero (.mk 2 4)) s ∧ s.tables.totalEntries = 2 ∧
      let t := ((s.sight Identifier.hash p).sight Identifier.hash q).tables
      let t' := ((s.sight Identifier.hash q).sight Identifier.hash p).tables
      t.rt1 = t'.rt1 ∧ t.rt2 = t'.rt2 ∧ t.ns.entries ≠ t'.ns.entries ∧
      (s.sight Identifier.hash q).route Identifier.hash p =
        .ok (.considered ⟨3, 1⟩ .admitted, .considered ⟨2, 0⟩ .admitted) := by
  intro c peer p q
  have hstart : Reachable Identifier.hash { Config.small with nsSize := 1 } (.zero (.mk 2 4)) _ :=
    Reachable.start rfl rfl "10.0.0.1:7000" (.ofSeed 7) (.ofMillis 0)
  have hs := hstart.handle (.notify (.ofFn (.mk 2 4) (· == 0)) "10.0.0.4:7000")
  obtain ⟨htables, hroute, -, -⟩ := hs.notifies_commute (p := p) (q := q) rfl rfl (Or.inl rfl)
    (by decide +kernel) (fun kind => by cases kind <;> decide +kernel) (by decide +kernel)
    (fun kind => by cases kind <;> decide +kernel)
  exact ⟨_, hs, by decide +kernel, htables .rt1 (by simp), htables .rt2 (by simp),
    by decide +kernel, hroute.trans (by decide +kernel)⟩

end CubeRouting
