/-
  The addresses of a node's peers.

  The five tables keep entries of a peer apart from each other, and they come
  at different times.  They are of one peer all the same: `NodesAgree` says
  that entries of one hash have one identifier and one address.

  * `Invariant.handle_moves`, `Reachable.nodesAgree_notify`: a request keeps
    this;
  * `Reachable.nodesAgree`: it holds in every state that a node reaches;
  * `Reachable.addresses_agree`: what a notification does to the addresses.
-/
import CubeRouting.Proofs.Run.Report

namespace CubeRouting

variable {key : Identifier → UInt64} {c : Config} {self : Identifier} {s : Service}

/-- The node at the address of a peer, if it is that peer. -/
def NodeRecord.relocated (node peer : NodeRecord) : NodeRecord :=
  if node.hash = peer.hash ∧ node.id = peer.id then { node with address := peer.address } else node

theorem NodeRecord.hash_relocated (node peer : NodeRecord) :
    (node.relocated peer).hash = node.hash := by
  unfold relocated
  split <;> rfl

theorem Entry.node_relocated (e : Entry) (peer : NodeRecord) :
    (e.relocated peer).node = e.node.relocated peer := by
  unfold relocated NodeRecord.relocated
  split <;> rfl

/-! ## Tables -/

namespace RoutingTable

/-- Entries of one hash have one identifier and one address. -/
def NodesAgree (t : RoutingTable) : Prop :=
  ∀ kind kind', ∀ e ∈ (t.get kind).entries, ∀ e' ∈ (t.get kind').entries,
    e.hash = e'.hash → e.node = e'.node

/-- The nodes of the entries of `t'` are those of `t`, each moved by `g`. -/
def Moves (g : NodeRecord → NodeRecord) (t t' : RoutingTable) : Prop :=
  ∀ kind, ∀ e' ∈ (t'.get kind).entries, ∃ e ∈ (t.get kind).entries, e'.node = g e.node

variable {g : NodeRecord → NodeRecord} {t t' : RoutingTable}

theorem NodesAgree.of_moves (h : t.NodesAgree) (hg : ∀ node, (g node).hash = node.hash)
    (hm : Moves g t t') : t'.NodesAgree := by
  intro kind kind' e₁' he₁' e₂' he₂' hh
  obtain ⟨e₁, he₁, hnode₁⟩ := hm kind e₁' he₁'
  obtain ⟨e₂, he₂, hnode₂⟩ := hm kind' e₂' he₂'
  rw [Entry.hash, Entry.hash, hnode₁, hnode₂, hg, hg] at hh
  rw [hnode₁, hnode₂, h kind kind' e₁ he₁ e₂ he₂ hh]

section
variable (hw : ∀ kind, (t.get kind).WellFormed)
include hw

theorem moves_updateAddress (peer : NodeRecord) :
    Moves (·.relocated peer) t (t.updateAddress peer).1 := by
  intro kind e' he'
  obtain ⟨i, hi⟩ := SubTable.mem_entries.1 he'
  rw [slot_updateAddress (hw kind), List.mem_map] at hi
  obtain ⟨e, he, rfl⟩ := hi
  exact ⟨e, SubTable.mem_entries.2 ⟨i, he⟩, e.node_relocated peer⟩

theorem moves_updateEntries {f : Entry → Option Entry} (hash : UInt64)
    (hf : ∀ e e', f e = some e' → e'.node = e.node) : Moves id t (t.updateEntries hash f).1 := by
  intro kind e' he'
  rw [get_updateEntries] at he'
  split at he'
  · rename_i e₁ he₁
    obtain ⟨e₀, he₀, hfe⟩ := Option.bind_eq_some_iff.1 he₁
    obtain ⟨hmem, hh⟩ := (hw kind).get?_eq_some_iff.1 he₀
    obtain ⟨e, he, rfl⟩ := (hw kind).mem_modify.1 he'
    by_cases heq : e.hash = hash
    · rw [if_pos heq]
      exact ⟨e₀, hmem, hf e₀ e₁ hfe⟩
    · rw [if_neg heq]
      exact ⟨e, he, rfl⟩
  · exact ⟨e', he', rfl⟩

theorem moves_set_modify {f : Entry → Entry} (kind : TableKind) (hash : UInt64)
    (hf : ∀ e, (f e).node = e.node) :
    Moves id t (t.set kind ((t.get kind).modify hash f)) := by
  intro other e' he'
  rw [get_set] at he'
  split at he'
  · rename_i heq
    subst heq
    obtain ⟨e, he, rfl⟩ := (hw other).mem_modify.1 he'
    refine ⟨e, he, ?_⟩
    split
    · exact hf e
    · rfl
  · exact ⟨e', he', rfl⟩

theorem moves_removeWhere (p : Entry → Bool) : Moves id t (t.removeWhere p).1 := by
  intro kind e' he'
  rw [get_removeWhere] at he'
  exact ⟨e', (hw kind).mem_removeAll he', rfl⟩

theorem moves_removePeer (hash : UInt64) : Moves id t (t.removePeer hash).1 := by
  intro kind e' he'
  rw [get_removePeer] at he'
  exact ⟨e', ((hw kind).mem_remove.1 he').1, rfl⟩

theorem moves_set_remove (kind : TableKind) (hash : UInt64) :
    Moves id t (t.set kind ((t.get kind).remove hash).1) := by
  intro other e' he'
  rw [get_set] at he'
  split at he'
  · rename_i heq
    subst heq
    exact ⟨e', ((hw other).mem_remove.1 he').1, rfl⟩
  · exact ⟨e', he', rfl⟩

end

theorem moves_updateAll {f : Entry → Entry} (hf : ∀ e, (f e).node = e.node) :
    Moves id t (t.updateAll f) := by
  intro kind e' he'
  rw [get_updateAll, SubTable.mem_modifyAll] at he'
  obtain ⟨e, he, rfl⟩ := he'
  exact ⟨e, he, hf e⟩

end RoutingTable

/-! ## Requests -/

/-- What a request that brings no peers does to the nodes of the entries. -/
def Request.moves (key : Identifier → UInt64) : Request → NodeRecord → NodeRecord
  | .updateAddress id address => (·.relocated (.keyed key id address))
  | _ => id

/-- **A request that brings no peers** moves nodes and adds none. -/
theorem Invariant.handle_moves (h : Invariant key c self s) {r : Request} (hr : r.peers = []) :
    s.tables.Moves (r.moves key) (s.handle key r).1.tables := by
  have hw : ∀ kind, (s.tables.get kind).WellFormed := h.wellFormed
  have hrefl : s.tables.Moves id s.tables := fun _ e' he' => ⟨e', he', rfl⟩
  cases r with
  | setTime now => exact hrefl
  | notify id address => cases hr
  | recoveryReply peers =>
    rw [show peers = [] from hr]
    exact hrefl
  | recordPong hash =>
    refine RoutingTable.moves_updateEntries hw hash fun e e' he' => ?_
    cases he'
    rfl
  | recordMissedPong hash =>
    refine RoutingTable.moves_updateEntries hw hash fun e e' he' => ?_
    cases he'
    rfl
  | evictDead threshold => exact RoutingTable.moves_removeWhere hw _
  | removePeer hash => exact RoutingTable.moves_removePeer hw hash
  | removeFrom kind hash => exact RoutingTable.moves_set_remove hw kind hash
  | removeWhere p => exact RoutingTable.moves_removeWhere hw p
  | setEnabled hash enabled =>
    refine RoutingTable.moves_updateEntries hw hash fun e e' he' => ?_
    split at he'
    · cases he'
    · cases he'
      rfl
  | setEnabledIn kind hash enabled => exact RoutingTable.moves_set_modify hw kind hash fun _ => rfl
  | setAllEnabled enabled => exact RoutingTable.moves_updateAll fun _ => rfl
  | setData kind hash k value =>
    cases hset : s.tables.setData? kind hash k value with
    | none =>
      rw [Service.handle, Service.setData, hset]
      exact hrefl
    | some r =>
      obtain ⟨e, -, hr⟩ := Option.bind_eq_some_iff.1 hset
      cases hr
      rw [Service.handle, Service.setData, hset]
      exact RoutingTable.moves_set_modify hw kind hash fun _ => rfl
  | updateAddress id address => exact RoutingTable.moves_updateAddress hw _

theorem Request.hash_moves (key : Identifier → UInt64) (r : Request) (node : NodeRecord) :
    (r.moves key node).hash = node.hash := by
  cases r with
  | updateAddress id address => exact node.hash_relocated _
  | _ => rfl

/-! ## Notifications -/

section
variable {id : Identifier} {address : Address} {time : Timestamp} {report : Report}
  {kind : TableKind} {e : Entry}

/-- After a notification an entry is of the peer, or it was there before with
    the same node or with that of the peer at another address. -/
theorem Reachable.node_of_processed (h : Reachable key c self s)
    (hp : (s.engine.notify (.keyed key id address) time).2 = .processed report)
    (he : e ∈ ((s.engine.notify (.keyed key id address) time).1.tables.get kind).entries) :
    e.node = .keyed key id address ∨ ∃ e₀ ∈ (s.tables.get kind).entries, e.node =
      if e₀.hash = key id then { e₀.node with address := address } else e₀.node := by
  obtain ⟨-, hconflict, standing, -, -, hplaces⟩ := Engine.notify_processed hp
  have hmoved := (h.handle (.updateAddress id address)).invariant.wellFormed kind
  have hslots := h.invariant.slot_moved hconflict kind
  obtain ⟨i, hi⟩ := SubTable.mem_entries.1 he
  rcases ((hplaces.placed kind).tells hmoved).mem_slot hi with hold | ⟨data, rfl⟩
  · change e ∈ ((s.tables.updateAddress (.keyed key id address)).1.get kind).slot i at hold
    rw [hslots] at hold
    obtain ⟨e₀, he₀, rfl⟩ := List.mem_map.1 hold
    refine Or.inr ⟨e₀, SubTable.mem_entries.2 ⟨i, he₀⟩, ?_⟩
    change (if e₀.hash = key id then _ else _ : Entry).node = _
    split <;> rfl
  · exact Or.inl rfl

/-- **All entries of a peer that was placed have its identifier and address.** -/
theorem Reachable.node_eq_of_processed (h : Reachable key c self s)
    (hp : (s.engine.notify (.keyed key id address) time).2 = .processed report)
    (he : e ∈ ((s.engine.notify (.keyed key id address) time).1.tables.get kind).entries)
    (hh : e.hash = key id) : e.node = .keyed key id address := by
  obtain ⟨-, hconflict, -⟩ := Engine.notify_processed hp
  rcases h.node_of_processed hp he with hnew | ⟨e₀, he₀, hnode⟩
  · exact hnew
  split at hnode
  · rename_i hh₀
    have hid := Engine.id_eq_of_conflict? h.invariant.wellFormed hconflict he₀ hh₀
    rw [hnode, NodeRecord.keyed, NodeRecord.mk.injEq]
    exact ⟨hid, rfl, hh₀⟩
  · rename_i hh₀
    exact absurd ((congrArg NodeRecord.hash hnode).symm.trans hh) hh₀

/-- The nodes of the other entries stay. -/
theorem Reachable.exists_node_eq (h : Reachable key c self s)
    (hp : (s.engine.notify (.keyed key id address) time).2 = .processed report)
    (he : e ∈ ((s.engine.notify (.keyed key id address) time).1.tables.get kind).entries)
    (hh : e.hash ≠ key id) : ∃ e₀ ∈ (s.tables.get kind).entries, e.node = e₀.node := by
  rcases h.node_of_processed hp he with hnew | ⟨e₀, he₀, hnode⟩
  · exact absurd (congrArg NodeRecord.hash hnew) hh
  split at hnode
  · rename_i hh₀
    exact absurd ((congrArg NodeRecord.hash hnode).trans hh₀) hh
  · exact ⟨e₀, he₀, hnode⟩

end

theorem Reachable.nodesAgree_notify (h : Reachable key c self s) (hagree : s.tables.NodesAgree)
    (id : Identifier) (address : Address) (time : Timestamp) :
    (s.engine.notify (.keyed key id address) time).1.tables.NodesAgree := by
  cases hp : (s.engine.notify (.keyed key id address) time).2 with
  | skipped reason =>
    obtain ⟨recent, -, hskip⟩ := Engine.notify_skipped hp
    rw [hskip]
    exact hagree
  | processed report =>
    intro kind kind' e he e' he' hh
    by_cases hpeer : e.hash = key id
    · rw [h.node_eq_of_processed hp he hpeer, h.node_eq_of_processed hp he' (hh.symm.trans hpeer)]
    · obtain ⟨e₀, he₀, hnode⟩ := h.exists_node_eq hp he hpeer
      obtain ⟨e₀', he₀', hnode'⟩ := h.exists_node_eq hp he' fun h' => hpeer (hh.trans h')
      rw [Entry.hash, Entry.hash, hnode, hnode'] at hh
      rw [hnode, hnode', hagree kind kind' e₀ he₀ e₀' he₀' hh]

/-! ## Runs -/

/-- **The entries of a node agree** in every state that it reaches. -/
theorem Reachable.nodesAgree (h : Reachable key c self s) : s.tables.NodesAgree := by
  refine h.induction_singles (fun address entropy now => ?_) (fun s r h hr hs => ?_)
    fun s id address h hs => h.nodesAgree_notify hs id address s.now
  · intro kind kind' e he
    change e ∈ ((RoutingTable.ofConfig c).get kind).entries at he
    rw [entries_ofConfig] at he
    cases he
  · exact hs.of_moves (r.hash_moves key) (h.invariant.handle_moves hr)

/-- **What the addresses of a node's peers are**: entries of one hash have one
    identifier and one address; a peer that is placed is stored as it was seen;
    if addresses are not updated no notification changes them; and a peer whose
    hash is that of another one changes nothing. -/
theorem Reachable.addresses_agree (h : Reachable key c self s) :
    s.tables.NodesAgree ∧ ∀ id address time,
      (∀ report, (s.engine.notify (.keyed key id address) time).2 = .processed report →
        ∀ kind, ∀ e ∈ ((s.engine.notify (.keyed key id address) time).1.tables.get kind).entries,
          e.hash = key id → e.node = .keyed key id address) ∧
      (c.updateAddresses = false → ∀ kind, ∀ e ∈ (s.tables.get kind).entries, ∀ kind',
        ∀ e' ∈ ((s.engine.notify (.keyed key id address) time).1.tables.get kind').entries,
          e'.hash = e.hash → e'.node = e.node) ∧
      (∀ kind, ∀ e ∈ (s.tables.get kind).entries, e.hash = key id → e.node.id ≠ id →
        ∃ reason recent, (recent = s.engine.recent ∨
            recent = (s.engine.checkRecent (key id) time).2.recent) ∧
          s.engine.notify (.keyed key id address) time = ({ s.engine with
            recent := recent
            counters := s.engine.counters.record (.skipped reason) }, .skipped reason)) := by
  have hinv := h.invariant
  refine ⟨h.nodesAgree, fun id address time => ⟨fun report hp kind e he hh => ?_,
    fun hoff kind e he kind' e' he' hh => ?_, fun kind e he hh hne => ?_⟩⟩
  · exact h.node_eq_of_processed hp he hh
  · cases hp : (s.engine.notify (.keyed key id address) time).2 with
    | skipped reason =>
      obtain ⟨recent, -, hskip⟩ := Engine.notify_skipped hp
      rw [hskip] at he'
      exact h.nodesAgree kind' kind e' he' e he hh
    | processed report =>
      by_cases hpeer : e'.hash = key id
      · obtain ⟨-, hconflict, -⟩ := Engine.notify_processed hp
        have hid := Engine.id_eq_of_conflict? hinv.wellFormed hconflict he (hh.symm.trans hpeer)
        have haddress := Engine.address_eq_of_conflict? hinv.wellFormed hconflict he
          (hh.symm.trans hpeer) (by rw [hinv.config_eq, hoff])
        rw [h.node_eq_of_processed hp he' hpeer, NodeRecord.keyed, NodeRecord.mk.injEq]
        exact ⟨hid.symm, haddress.symm, hpeer.symm.trans hh⟩
      · obtain ⟨e₀, he₀, hnode⟩ := h.exists_node_eq hp he' hpeer
        rw [hnode]
        rw [Entry.hash, hnode] at hh
        exact h.nodesAgree kind' kind e₀ he₀ e he hh
  · cases hp : (s.engine.notify (.keyed key id address) time).2 with
    | skipped reason =>
      obtain ⟨recent, hrecent, hskip⟩ := Engine.notify_skipped hp
      exact ⟨reason, recent, hrecent, Prod.ext hskip hp⟩
    | processed report =>
      obtain ⟨-, hconflict, -⟩ := Engine.notify_processed hp
      exact absurd (Engine.id_eq_of_conflict? hinv.wellFormed hconflict he hh) hne

/-- Two peers of one hash. -/
theorem addresses_agree_collision : ∃ (key : Identifier → UInt64) (s : Service),
    Reachable key .small (.zero (.mk 2 4)) s ∧ s.tables.totalEntries = 2 ∧ s.tables.NodesAgree ∧
    ∃ reason recent, (recent = s.engine.recent ∨
        recent = (s.engine.checkRecent 1 (.ofMillis 5)).2.recent) ∧
      s.engine.notify (.keyed key (.ofFn (.mk 2 4) (· == 6)) "10.0.0.3:7000") (.ofMillis 5) =
        ({ s.engine with
          recent := recent
          counters := s.engine.counters.record (.skipped reason) }, .skipped reason) := by
  let key : Identifier → UInt64 := fun id => if id = .zero (.mk 2 4) then 0 else 1
  have hstart : Reachable key .small (.zero (.mk 2 4)) _ :=
    Reachable.start rfl rfl "10.0.0.1:7000" (.ofSeed 7) (.ofMillis 0)
  have hs := hstart.handle (.notify (.ofFn (.mk 2 4) (· == 4)) "10.0.0.2:7000")
  obtain ⟨hagree, hnotify⟩ := hs.addresses_agree
  obtain ⟨-, -, hcollide⟩ := hnotify (.ofFn (.mk 2 4) (· == 6)) "10.0.0.3:7000" (.ofMillis 5)
  have hkey : key (.ofFn (.mk 2 4) (· == 6)) = 1 := by decide +kernel
  rw [hkey] at hcollide
  refine ⟨key, _, hs, by decide +kernel, hagree, hcollide .ns
    (.fresh (.keyed key (.ofFn (.mk 2 4) (· == 4)) "10.0.0.2:7000") 2 (.ofMillis 0) .ns) ?_ ?_ ?_⟩
  · decide +kernel
  · decide +kernel
  · decide +kernel

end CubeRouting
