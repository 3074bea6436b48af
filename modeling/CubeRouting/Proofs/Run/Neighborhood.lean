/-
  The neighborhood set under the distance policy.

  A node that is notified of peers, again and again and in any order, keeps the
  nearest of those that it placed.

  * `Reachable.takes`: what the neighborhood set does with one peer;
  * `Reachable.neighborhood_nearest`: what it has after any number of them.
-/
import CubeRouting.Proofs.Number.Nonneg
import CubeRouting.Proofs.Policy.Distance
import CubeRouting.Proofs.Policy.Nearest
import CubeRouting.Proofs.Run.Report

namespace CubeRouting

variable {key : Identifier → UInt64} {c : Config} {self : Identifier} {s : Service}

/-! ## The policy -/

/-- **The distance policy stays in use.** -/
theorem Reachable.nsPolicy_eq (h : Reachable key c self s) (hc : c.nsPolicy = .distance) :
    s.engine.nsPolicy = .distance := by
  have hrule := h.follows.ns
  rw [h.invariant.config_eq, Config.ruleOf, Policy.ofNs, hc] at hrule
  exact Policy.eq_of_rule hrule (by simp) (by simp)

/-! ## Members -/

/-- The distance of a peer to the node. -/
def Config.distance (c : Config) (self peer : Identifier) : Binary64 := c.metric.between self peer

/-- How far a peer is, as a place on the line of numbers. -/
def Config.remoteness (c : Config) (self peer : Identifier) : Int := (c.distance self peer).line

theorem Config.isNaN_distance (c : Config) (self peer : Identifier) :
    (c.distance self peer).isNaN = false :=
  (c.metric.nonneg_between self peer).isNaN_eq

/-- Peers at different distances are at different places. -/
theorem Config.injOn_remoteness {c : Config} {self : Identifier} {peers : Set Identifier}
    (h : Set.InjOn (c.distance self) peers) : Set.InjOn (c.remoteness self) peers := by
  intro x hx y hy heq
  exact h hx hy (((c.metric.nonneg_between self x).line_inj (c.metric.nonneg_between self y)).1 heq)

/-- The peers of a list of entries. -/
def peersOf (members : List Entry) : Finset Identifier := (members.map (·.node.id)).toFinset

@[simp] theorem mem_peersOf {members : List Entry} {id : Identifier} :
    id ∈ peersOf members ↔ ∃ e ∈ members, e.node.id = id := by
  simp [peersOf]

theorem peersOf_insertIdx {members : List Entry} {position : Nat} (h : position ≤ members.length)
    (e : Entry) : peersOf (members.insertIdx position e) = insert e.node.id (peersOf members) := by
  ext id
  simp [List.mem_insertIdx h, eq_comm]

/-- A peer that moved is still the same. -/
theorem peersOf_of_edits {t t' : SubTable} (h : t'.Edits t) :
    peersOf t'.entries = peersOf t.entries := by
  ext id
  simp only [mem_peersOf]
  constructor
  · rintro ⟨e, he, rfl⟩
    obtain ⟨e₀, he₀, hc⟩ := h.entries_continue he
    exact ⟨e₀, he₀, hc.id.symm⟩
  · rintro ⟨e, he, rfl⟩
    obtain ⟨e₁, he₁, hc⟩ := h.entries_continued he
    exact ⟨e₁, he₁, hc.id⟩

section
variable {members : List Entry} (hn : (members.map (·.hash)).Nodup)
  (hkey : ∀ e ∈ members, e.hash = key e.node.id)
include hn hkey

theorem nodup_peers : (members.map (·.node.id)).Nodup := by
  have hmap : (members.map (·.node.id)).map key = members.map (·.hash) := by
    rw [List.map_map]
    exact List.map_congr_left fun e he => (hkey e he).symm
  refine List.Nodup.of_map key ?_
  rwa [hmap]

theorem card_peersOf : (peersOf members).card = members.length := by
  rw [peersOf, List.toFinset_card_of_nodup (nodup_peers hn hkey), List.length_map]

theorem peersOf_eraseP {w : Entry} (hw : w ∈ members) :
    peersOf (members.eraseP (·.hash == w.hash)) = (peersOf members).erase w.node.id := by
  have hiff : ∀ e ∈ members, (e.hash = w.hash ↔ e.node.id = w.node.id) := by
    intro e he
    constructor
    · intro hh
      rw [List.inj_on_of_nodup_map hn he hw hh]
    · intro hid
      rw [hkey e he, hkey w hw, hid]
  ext id
  rw [SubTable.eraseP_hash_eq_filter hn]
  simp only [mem_peersOf, Finset.mem_erase, List.mem_filter, bne_iff_ne]
  constructor
  · rintro ⟨e, ⟨he, hne⟩, rfl⟩
    exact ⟨fun hid => hne ((hiff e he).2 hid), e, he, rfl⟩
  · rintro ⟨hne, e, he, rfl⟩
    exact ⟨e, ⟨he, fun hh => hne ((hiff e he).1 hh)⟩, rfl⟩

end

/-! ## The neighborhood set -/

/-- The peers in the neighborhood set. -/
def Service.neighborhood (s : Service) : Finset Identifier := peersOf s.tables.ns.entries

theorem Metric.between_of_measure {m : Metric} {a b : Identifier} {x : Binary64}
    (h : m.measure a b = .ok x) : m.between a b = x := by
  rw [measure] at h
  cases hshape : Identifier.checkShape a b with
  | error fault =>
    rw [hshape] at h
    cases h
  | ok =>
    rw [hshape, ok_bind] at h
    cases h
    rfl

namespace Invariant

variable (h : Invariant key c self s)
include h

theorem distance_eq (kind : TableKind) {e : Entry} (he : e ∈ (s.tables.get kind).entries) :
    e.distance = c.distance self e.node.id :=
  (Metric.between_of_measure (h.inPlace kind e he).distance).symm

/-- The neighborhood set has one slot. -/
theorem entries_ns : s.tables.ns.entries = s.tables.ns.slot SlotRef.ns.index := by
  have hgrid : s.tables.ns.SameGrid (.empty .ns 1 1 c.nsSize) := h.grid .ns
  have hw : s.tables.ns.WellFormed := h.wellFormed .ns
  have hcells : s.tables.ns.cells = [SlotRef.ns.index] := by
    rw [SubTable.cells, hgrid.levels, hgrid.columns]
    rfl
  rw [hw.entries_eq_scan, SubTable.scan, hcells, List.flatMap_singleton]

/-- The distances in the neighborhood set are those of its peers. -/
theorem remoteness_ns : ((s.tables.ns.entries.map (·.distance.line) : List Int) : Multiset Int) =
    s.neighborhood.val.map (c.remoteness self) := by
  have hw : s.tables.ns.WellFormed := h.wellFormed .ns
  have hnodup : (s.tables.ns.entries.map (·.node.id)).Nodup := by
    rw [h.entries_ns]
    exact nodup_peers (hw.nodup _) fun e he =>
      (h.inPlace .ns e (SubTable.mem_entries.2 ⟨_, he⟩)).hash
  rw [Service.neighborhood, peersOf, List.toFinset_val, hnodup.dedup, Multiset.map_coe,
    List.map_map]
  refine congrArg _ (List.map_congr_left fun e he => ?_)
  exact congrArg Binary64.line (h.distance_eq .ns he)

/-- **What the neighborhood set does with an offer**: it keeps the nearest. -/
theorem takes_placeNs {candidate : Candidate} {p : Placement} {t' : SubTable}
    (huse : c.useNs = true) (hpolicy : s.engine.nsPolicy = .distance)
    (hhash : candidate.node.hash = key candidate.node.id)
    (hknown : ∀ e ∈ s.tables.ns.entries, e.hash = candidate.node.hash →
      e.node.id = candidate.node.id)
    (hdistance : candidate.distance = c.distance self candidate.node.id)
    (hp : p = (s.engine.placeNs candidate).2) (hplaced : Placed s.tables.ns candidate p t') :
    Takes c.nsSize (c.remoteness self) candidate.node.id s.neighborhood
      (peersOf (t'.slot SlotRef.ns.index)) := by
  have hw : s.tables.ns.WellFormed := h.wellFormed .ns
  have hcapacity : s.tables.ns.capacity = c.nsSize := (h.grid .ns).capacity
  have hkey : ∀ e ∈ s.tables.ns.entries, e.hash = key e.node.id :=
    fun e he => (h.inPlace .ns e he).hash
  have hdist : ∀ e ∈ s.tables.ns.entries, e.distance = c.distance self e.node.id :=
    fun e he => h.distance_eq .ns he
  have htells := hplaced.tells hw
  by_cases hstored : s.tables.ns.contains candidate.node.hash = true
  · rw [hplaced.eq_of_contains hstored, ← h.entries_ns]
    obtain ⟨e, he, hh⟩ := hw.contains_iff.1 hstored
    exact .stored (mem_peersOf.2 ⟨e, he, hknown e he hh⟩)
  have hno : candidate.node.id ∉ s.neighborhood := by
    intro hmem
    obtain ⟨e, he, hid⟩ := mem_peersOf.1 hmem
    exact hstored (hw.contains_iff.2 ⟨e, he, by rw [hkey e he, hid, hhash]⟩)
  rw [Bool.not_eq_true] at hstored
  have hoffer : p = .considered SlotRef.ns.index
      (s.tables.ns.offer .distance candidate SlotRef.ns.index).2.2 := by
    rw [hp, Engine.placeNs, if_pos (by rw [h.config_eq, huse]), hpolicy, Shelf.offer]
    exact congrArg Prod.snd (if_neg (by rw [Bool.not_eq_true]; exact hstored))
  simp only [Service.neighborhood, h.entries_ns] at hkey hdist hno ⊢
  have hcard := card_peersOf (hw.nodup SlotRef.ns.index) hkey
  have hcandidate : c.remoteness self candidate.node.id = candidate.distance.line :=
    congrArg Binary64.line hdistance.symm
  have hline : ∀ e ∈ s.tables.ns.slot SlotRef.ns.index,
      c.remoteness self e.node.id = e.distance.line :=
    fun e he => congrArg Binary64.line (hdist e he).symm
  have hcases := SubTable.offer_distance (i := SlotRef.ns.index) hstored
    (by rw [hdistance, c.isNaN_distance]) fun e he => by rw [hdist e he, c.isNaN_distance]
  rcases hcases with ⟨hroom, ha⟩ | ⟨hfull, ha, hall⟩ | ⟨hfull, w, hmem, ha, hlt, hall⟩
  · rw [hoffer, ha] at htells
    obtain ⟨-, data, ⟨position, hle, hslot⟩, -⟩ := htells
    rw [hslot, peersOf_insertIdx hle]
    exact .added hno (by omega)
  · rw [hoffer, ha] at htells
    rw [htells]
    refine .declined hno (by omega) fun id hid => ?_
    obtain ⟨e, he, rfl⟩ := mem_peersOf.1 hid
    rw [hline e he, hcandidate]
    exact hall e he
  · rw [hoffer, ha] at htells
    obtain ⟨-, -, data, ⟨position, hle, hslot⟩, -⟩ := htells
    rw [hslot, peersOf_insertIdx hle, peersOf_eraseP (hw.nodup _) hkey hmem]
    refine .replaced hno (by omega) (mem_peersOf.2 ⟨w, hmem, rfl⟩) ?_ fun id hid => ?_
    · rwa [hcandidate, hline w hmem]
    · obtain ⟨e, he, rfl⟩ := mem_peersOf.1 hid
      rw [hline e he, hline w hmem]
      exact hall e he

end Invariant

/-! ## Sightings -/

/-- A peer that was seen at a time. -/
structure Sighting where
  id : Identifier
  address : Address
  time : Timestamp

/-- The requests by which a node learns of it. -/
def Sighting.requests (x : Sighting) : List Request := [.setTime x.time, .notify x.id x.address]

namespace Service

/-- The node after it was notified of peers, one by one. -/
def watch (key : Identifier → UInt64) (s : Service) (xs : List Sighting) : Service :=
  s.run key (xs.flatMap Sighting.requests)

/-- The node after one of them. -/
def sight (key : Identifier → UInt64) (s : Service) (x : Sighting) : Service :=
  ⟨(s.engine.notify (.keyed key x.id x.address) x.time).1, x.time⟩

/-- The peers among them that it placed. -/
def placed (key : Identifier → UInt64) (s : Service) : List Sighting → List Identifier
  | [] => []
  | x :: xs =>
    match (s.engine.notify (.keyed key x.id x.address) x.time).2 with
    | .processed _ => x.id :: (s.sight key x).placed key xs
    | .skipped _ => (s.sight key x).placed key xs

/-- All peers that it had in its neighborhood set or placed. -/
def seen (key : Identifier → UInt64) (s : Service) (xs : List Sighting) : Finset Identifier :=
  s.neighborhood ∪ (s.placed key xs).toFinset

theorem watch_cons (key : Identifier → UInt64) (s : Service) (x : Sighting) (xs : List Sighting) :
    s.watch key (x :: xs) = (s.sight key x).watch key xs := rfl

end Service

theorem Reachable.sight (h : Reachable key c self s) (x : Sighting) :
    Reachable key c self (s.sight key x) :=
  (h.handle (.setTime x.time)).handle (.notify x.id x.address)

theorem Reachable.watch (h : Reachable key c self s) (xs : List Sighting) :
    Reachable key c self (s.watch key xs) := h.run _

/-- **What the neighborhood set does with a peer that is placed**: it keeps the
    nearest. -/
theorem Reachable.takes (h : Reachable key c self s) (huse : c.useNs = true)
    (hpolicy : c.nsPolicy = .distance) {x : Sighting} {report : Report}
    (hp : (s.engine.notify (.keyed key x.id x.address) x.time).2 = .processed report) :
    Takes c.nsSize (c.remoteness self) x.id s.neighborhood
      (s.sight key x).neighborhood := by
  have hinv := h.invariant
  have hmoved := h.handle (.updateAddress x.id x.address)
  obtain ⟨-, hconflict, standing, hstanding, -, hplaces⟩ := Engine.notify_processed hp
  obtain ⟨hmeasure, -, -⟩ := Standing.compute_ok hstanding
  rw [hinv.config_eq, hinv.self_id] at hmeasure
  have hdistance : standing.distance = c.distance self x.id :=
    (Metric.between_of_measure hmeasure).symm
  have hedits : ((s.tables.updateAddress (.keyed key x.id x.address)).1.get .ns).Edits
      (s.tables.get .ns) := RoutingTable.edits_updateAddress _ (hinv.wellFormed .ns)
  have hsame : (s.handle key (.updateAddress x.id x.address)).1.neighborhood = s.neighborhood :=
    peersOf_of_edits hedits
  have htakes := hmoved.invariant.takes_placeNs huse (hmoved.nsPolicy_eq hpolicy) rfl
    (fun e he hh => ?_) hdistance hplaces.ns_offer.1 hplaces.ns
  · rw [hsame] at htakes
    have hafter : (s.sight key x).neighborhood = _ :=
      congrArg peersOf (h.sight x).invariant.entries_ns
    rw [hafter]
    exact htakes
  · obtain ⟨e₀, he₀, hc⟩ := hedits.entries_continue he
    rw [hc.id]
    exact Engine.id_eq_of_conflict? hinv.wellFormed hconflict he₀ (hc.hash.symm.trans hh)

/-! ## Any number of sightings -/

section
variable (huse : c.useNs = true) (hpolicy : c.nsPolicy = .distance)
include huse hpolicy

/-- **Any number of peers**: the neighborhood set keeps the nearest of what it
    had seen and what it was notified of since. -/
theorem Reachable.nearest_watch (h : Reachable key c self s) (xs : List Sighting)
    {seen : Finset Identifier}
    (hseen : Nearest c.nsSize (c.remoteness self) seen s.neighborhood) :
    Nearest c.nsSize (c.remoteness self)
      (seen ∪ (s.placed key xs).toFinset) (s.watch key xs).neighborhood := by
  induction xs generalizing s seen with
  | nil => simpa [Service.placed, Service.watch, Service.run] using hseen
  | cons x xs ih =>
    rw [Service.watch_cons]
    cases hp : (s.engine.notify (.keyed key x.id x.address) x.time).2 with
    | skipped reason =>
      have hkeep : (s.sight key x).neighborhood = s.neighborhood := by
        obtain ⟨recent, -, hskip⟩ := Engine.notify_skipped hp
        rw [Service.sight, hskip]
        rfl
      have hplaced : s.placed key (x :: xs) = (s.sight key x).placed key xs := by
        rw [Service.placed, hp]
      rw [hplaced]
      exact ih (h.sight x) (hkeep.symm ▸ hseen)
    | processed report =>
      have hplaced : seen ∪ (s.placed key (x :: xs)).toFinset =
          insert x.id seen ∪ ((s.sight key x).placed key xs).toFinset := by
        rw [Service.placed, hp, List.toFinset_cons, Finset.union_insert, Finset.insert_union]
      rw [hplaced]
      exact ih (h.sight x) (hseen.takes (h.takes huse hpolicy hp))

/-- **The neighborhood set has the nearest peers**: after any sightings its
    distances are the smallest of all that the node saw.  If no two of these
    are equal its members are those with fewer than `nsSize` closer ones, and
    then they are the same whenever the same peers are placed. -/
theorem Reachable.neighborhood_nearest (h : Reachable key c self s) (xs : List Sighting) :
    (((s.watch key xs).tables.ns.entries.map (·.distance.line) : List Int) : Multiset Int).sort =
      ((s.seen key xs).val.map (c.remoteness self)).sort.take c.nsSize ∧
    (Set.InjOn (c.distance self) (s.seen key xs) →
      (∀ id, id ∈ (s.watch key xs).neighborhood ↔ id ∈ s.seen key xs ∧
        ((s.seen key xs).filter fun x => (c.distance self x).lt (c.distance self id)).card <
          c.nsSize) ∧
      ∀ ys, (s.placed key ys).toFinset = (s.placed key xs).toFinset →
        (s.watch key ys).neighborhood = (s.watch key xs).neighborhood) := by
  have hstart : Nearest c.nsSize (c.remoteness self) s.neighborhood s.neighborhood := by
    refine Nearest.refl ?_
    have hinv := h.invariant
    have hw : s.tables.ns.WellFormed := hinv.wellFormed .ns
    rw [Service.neighborhood, hinv.entries_ns, card_peersOf (hw.nodup _) fun e he =>
      (hinv.inPlace .ns e (SubTable.mem_entries.2 ⟨_, he⟩)).hash]
    exact (hw.length_le _).trans_eq (hinv.grid .ns).capacity
  have hnear := h.nearest_watch huse hpolicy xs hstart
  refine ⟨?_, fun hinj => ⟨fun id => ?_, fun ys hys => ?_⟩⟩
  · rw [(h.watch xs).invariant.remoteness_ns]
    exact hnear.sort_eq
  · simp only [Binary64.lt_iff_line (c.isNaN_distance self _) (c.isNaN_distance self _)]
    exact hnear.mem_iff (c.injOn_remoteness hinj)
  · have hnear' := h.nearest_watch huse hpolicy ys hstart
    rw [hys] at hnear'
    exact hnear'.unique hnear (c.injOn_remoteness hinj)

end

/-- A distant peer that comes back after a near one took its place. -/
theorem neighborhood_nearest_returningPeer : ∃ (s : Service) (far near : Sighting),
    Reachable Identifier.hash { Config.small with nsSize := 1 } (.zero (.mk 2 4)) s ∧
    s.placed Identifier.hash [far, near, far] = [far.id, near.id, far.id] ∧
    near.id ∈ (s.watch Identifier.hash [far, near, far]).neighborhood ∧
    (s.watch Identifier.hash [near, far]).neighborhood =
      (s.watch Identifier.hash [far, near, far]).neighborhood := by
  have hstart : Reachable Identifier.hash { Config.small with nsSize := 1 } (.zero (.mk 2 4)) _ :=
    Reachable.start rfl rfl "10.0.0.1:7000" (.ofSeed 7) (.ofMillis 0)
  let far : Sighting := ⟨.ofFn (.mk 2 4) (· == 4), "10.0.0.2:7000", .ofMillis 5⟩
  let near : Sighting := ⟨.ofFn (.mk 2 4) (· == 6), "10.0.0.3:7000", .ofMillis 6⟩
  obtain ⟨-, hdiffer⟩ := hstart.neighborhood_nearest rfl rfl [far, near, far]
  obtain ⟨hmem, hsame⟩ := hdiffer (fun x hx y hy => by
    revert x y
    decide +kernel)
  refine ⟨_, far, near, hstart, by decide +kernel, (hmem _).2 (by decide +kernel), ?_⟩
  exact hsame [near, far] (by decide +kernel)

/-- The order decides which peers are placed where a peer that was placed
    shortly before is skipped. -/
theorem not_neighborhood_unordered : ¬∀ (c : Config) (self : Identifier) (s : Service)
    (xs ys : List Sighting), Reachable Identifier.hash c self s → c.useNs = true →
    c.nsPolicy = .distance → xs.Perm ys →
    Set.InjOn (c.distance self) ↑(s.seen Identifier.hash xs ∪ s.seen Identifier.hash ys) →
    (s.watch Identifier.hash xs).neighborhood = (s.watch Identifier.hash ys).neighborhood := by
  intro hall
  have hstart : Reachable Identifier.hash
      { Config.small with retention := 1000, recencyCapacity := 1 } (.zero (.mk 2 4)) _ :=
    Reachable.start rfl rfl "10.0.0.1:7000" (.ofSeed 7) (.ofMillis 0)
  let a : Sighting := ⟨.ofFn (.mk 2 4) (· == 4), "10.0.0.2:7000", .ofMillis 0⟩
  let b : Sighting := ⟨.ofFn (.mk 2 4) (· == 6), "10.0.0.3:7000", .ofMillis 0⟩
  have hs := (hstart.handle (.notify a.id a.address)).handle (.removePeer (Identifier.hash a.id))
  have hsame := hall _ _ _ [b, a] [a, b] hs rfl rfl (.swap a b []) (fun x hx y hy => by
    revert x y
    decide +kernel)
  revert hsame
  decide +kernel

end CubeRouting
