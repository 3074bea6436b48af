/-
  Placements are local.

  What comes of a peer depends on the slots that it is offered to and on
  whether the tables have it already.  Two tables that agree on these look the
  same to the peer (`SubTable.LooksLike`).

  * `SubTable.looksLike_offer`: in tables that look the same an offer ends in
    the same way, and they look the same afterwards;
  * `TablePair.looksLike_place`, `Engine.looksLike_place`: so do RT1 and RT2;
  * `Placement.Tells.slot_eq`: no other slot changes.
-/
import CubeRouting.Proofs.Placement.Report

namespace CubeRouting

/-! ## One table -/

namespace SubTable

/-- Two tables look the same to a peer that may be offered to some of their
    slots. -/
structure LooksLike (t' t : SubTable) (hash : UInt64) (slots : Set SlotIndex) : Prop where
  kind : t'.kind = t.kind
  capacity : t'.capacity = t.capacity
  contains : t'.contains hash = t.contains hash
  slot : ∀ i ∈ slots, t'.slot i = t.slot i

variable {t t' : SubTable} {hash : UInt64} {slots : Set SlotIndex} {e : Entry}

theorem LooksLike.insert (h : t'.LooksLike t e.hash slots) (hi : e.slot.index ∈ slots)
    (position : Nat) : t'.accepts e = t.accepts e ∧
      (t'.insert position e).LooksLike (t.insert position e) e.hash slots := by
  have haccepts : t'.accepts e = t.accepts e := by
    rw [accepts, accepts, h.slot _ hi, h.capacity, h.contains]
  refine ⟨haccepts, ?_⟩
  by_cases ha : t.accepts e = true
  · have ha' := haccepts.trans ha
    constructor
    case kind => rw [(sameGrid_insert ..).kind, (sameGrid_insert ..).kind, h.kind]
    case capacity => rw [(sameGrid_insert ..).capacity, (sameGrid_insert ..).capacity, h.capacity]
    case contains => rw [contains_insert ha', contains_insert ha, h.contains]
    case slot =>
      intro i hi
      rw [slot_insert ha', slot_insert ha, h.slot i hi]
  · have ha' : ¬t'.accepts e = true := by rwa [haccepts]
    rw [SubTable.insert, SubTable.insert, if_neg ha, if_neg ha']
    exact h

theorem LooksLike.remove (h : t'.LooksLike t hash slots) (hw : t.WellFormed) (hw' : t'.WellFormed)
    (other : UInt64) : (t'.remove other).1.LooksLike (t.remove other).1 hash slots where
  kind := by rw [(sameGrid_remove ..).kind, (sameGrid_remove ..).kind, h.kind]
  capacity := by rw [(sameGrid_remove ..).capacity, (sameGrid_remove ..).capacity, h.capacity]
  contains := by rw [contains_remove, contains_remove, h.contains]
  slot i hi := by rw [hw'.slot_remove, hw.slot_remove, h.slot i hi]

theorem LooksLike.carryOut (hw : t.WellFormed) (hw' : t'.WellFormed) (d : Decision)
    (h : t'.LooksLike t d.entry.hash slots) (hi : d.entry.slot.index ∈ slots) :
    (t'.carryOut d).2 = (t.carryOut d).2 ∧
      (t'.carryOut d).1.LooksLike (t.carryOut d).1 d.entry.hash slots := by
  unfold SubTable.carryOut
  cases d.move with
  | decline => exact ⟨rfl, h⟩
  | insert position =>
    obtain ⟨haccepts, hinsert⟩ := h.insert hi position
    dsimp only
    rw [haccepts]
    split
    · exact ⟨rfl, hinsert⟩
    · exact ⟨rfl, h⟩
  | replace victim position =>
    dsimp only
    rw [h.slot _ hi, h.contains]
    split
    · exact ⟨rfl, h⟩
    split
    · exact ⟨rfl, h⟩
    · exact ⟨rfl, ((h.remove hw hw' _).insert hi position).2⟩

/-- **An offer is local**: it ends in the same way in tables that look the same
    to the candidate. -/
theorem LooksLike.offer (hw : t.WellFormed) (hw' : t'.WellFormed) {candidate : Candidate}
    {i : SlotIndex} (h : t'.LooksLike t candidate.node.hash slots) (hi : i ∈ slots)
    (policy : Policy) :
    (t'.offer policy candidate i).2 = (t.offer policy candidate i).2 ∧
      (t'.offer policy candidate i).1.LooksLike (t.offer policy candidate i).1
        candidate.node.hash slots := by
  have hoffer : t'.offerOf candidate i = t.offerOf candidate i := by
    rw [offerOf, offerOf, h.kind, h.slot i hi, h.capacity, h.contains]
  obtain ⟨data, hentry⟩ := policy.entry_decide (t.offerOf candidate i)
  rw [offer_eq, offer_eq, hoffer]
  generalize policy.decide (t.offerOf candidate i) = r at hentry ⊢
  have hhash : r.1.entry.hash = candidate.node.hash := by
    rw [hentry]
    rfl
  have hindex : r.1.entry.slot.index = i := by
    rw [hentry]
    rfl
  rw [← hhash] at h ⊢
  obtain ⟨ha, hlike⟩ := h.carryOut hw hw' r.1 (hindex ▸ hi)
  exact ⟨congrArg (r.2, ·) ha, hlike⟩

end SubTable

/-! ## Slots that stay -/

/-- **A placement is local**: it changes no slot but the one that it names. -/
theorem Placement.Tells.slot_eq {p : Placement} {capacity : Nat} {slots : SlotIndex → List Entry}
    {entry : SlotIndex → Entry} {t' : SubTable} (h : p.Tells capacity slots entry t')
    {j : SlotIndex} (hj : ∀ i a, p = .considered i a → j ≠ i) : t'.slot j = slots j := by
  cases p with
  | considered i a =>
    have hne := hj i a rfl
    cases a with
    | admitted =>
      obtain ⟨-, data, hjoin⟩ := h
      exact hjoin.slot_ne j hne
    | replaced evicted =>
      obtain ⟨-, -, data, hjoin⟩ := h
      exact hjoin.slot_ne j hne
    | declined => exact h j
  | _ => exact h j

/-! ## A pair of tables -/

variable {candidate : Candidate} {slots : Set SlotIndex}

namespace Shelf

variable {s s' : Shelf} {kind : TableKind} {i : SlotIndex}

theorem looksLike_offer (hw : (s.tables.get kind).WellFormed)
    (hw' : (s'.tables.get kind).WellFormed) (hpolicy : s'.policy = s.policy)
    (h : (s'.tables.get kind).LooksLike (s.tables.get kind) candidate.node.hash slots)
    (hi : i ∈ slots) :
    (s'.offer kind i candidate).2 = (s.offer kind i candidate).2 ∧
      (s'.offer kind i candidate).1.policy = (s.offer kind i candidate).1.policy ∧
      ((s'.offer kind i candidate).1.tables.get kind).LooksLike
        ((s.offer kind i candidate).1.tables.get kind) candidate.node.hash slots := by
  unfold offer
  dsimp only
  rw [h.contains, hpolicy]
  split
  · exact ⟨rfl, hpolicy, h⟩
  · obtain ⟨hout, hlike⟩ := h.offer hw hw' hi s.policy
    dsimp only
    rw [RoutingTable.get_set, RoutingTable.get_set, if_pos rfl, if_pos rfl]
    exact ⟨congrArg (fun r => Placement.considered i r.2) hout, congrArg Prod.fst hout, hlike⟩

end Shelf

namespace TablePair

/-- Two pairs of tables, with the policies that fill them, look the same to a
    peer with the given cells. -/
structure LooksLike (pair : TablePair) (s' s : Shelf) (hash : UInt64) (cells : Option Cells) :
    Prop where
  rt1 : (s'.tables.get pair.rt1).LooksLike (s.tables.get pair.rt1) hash
    {i | ∃ x ∈ cells, i = x.rt1}
  rt2 : (s'.tables.get pair.rt2).LooksLike (s.tables.get pair.rt2) hash
    {i | ∃ x ∈ cells, x.rt2 = some i}
  policy : s'.policy = s.policy

/-- Only the two tables of the pair and the policy count. -/
theorem LooksLike.congr {pair : TablePair} {s' s r' r : Shelf} {hash : UInt64}
    {cells : Option Cells} (h : pair.LooksLike s' s hash cells)
    (htables : ∀ kind ∈ [pair.rt1, pair.rt2], r.tables.get kind = s.tables.get kind)
    (htables' : ∀ kind ∈ [pair.rt1, pair.rt2], r'.tables.get kind = s'.tables.get kind)
    (hpolicy : r.policy = s.policy) (hpolicy' : r'.policy = s'.policy) :
    pair.LooksLike r' r hash cells where
  rt1 := by
    rw [htables _ (by simp), htables' _ (by simp)]
    exact h.rt1
  rt2 := by
    rw [htables _ (by simp), htables' _ (by simp)]
    exact h.rt2
  policy := by rw [hpolicy, hpolicy', h.policy]

variable {pair : TablePair} {cells : Cells} {own : Option Cells} {s s' : Shelf}
  {first : Placement} (hne : pair.rt1 ≠ pair.rt2) (hown : cells ∈ own)
  (h : pair.LooksLike s' s candidate.node.hash own)
include hne hown h

theorem looksLike_placeRt1 (leaveToRt2 : Bool) (hw : (s.tables.get pair.rt1).WellFormed)
    (hw' : (s'.tables.get pair.rt1).WellFormed) :
    (pair.placeRt1 leaveToRt2 cells candidate s').2 =
        (pair.placeRt1 leaveToRt2 cells candidate s).2 ∧
      pair.LooksLike (pair.placeRt1 leaveToRt2 cells candidate s').1
        (pair.placeRt1 leaveToRt2 cells candidate s).1 candidate.node.hash own := by
  unfold placeRt1
  rw [h.rt1.contains]
  split
  · exact ⟨rfl, h⟩
  split
  · exact ⟨rfl, h⟩
  split
  · exact ⟨rfl, h⟩
  split
  · exact ⟨rfl, h⟩
  · obtain ⟨hout, hpolicy, hlike⟩ :=
      Shelf.looksLike_offer hw hw' h.policy h.rt1 ⟨cells, hown, rfl⟩
    refine ⟨hout, hlike, ?_, hpolicy⟩
    rw [s.offer_other _ _ hne.symm, s'.offer_other _ _ hne.symm]
    exact h.rt2

section
variable (hbelow : ∀ i, cells.rt2Below = some i → cells.rt2 = some i)
include hbelow

theorem looksLike_placeRt2 (hw : (s.tables.get pair.rt2).WellFormed)
    (hw' : (s'.tables.get pair.rt2).WellFormed) :
    (pair.placeRt2 cells candidate first s').2 = (pair.placeRt2 cells candidate first s).2 ∧
      pair.LooksLike (pair.placeRt2 cells candidate first s').1
        (pair.placeRt2 cells candidate first s).1 candidate.node.hash own := by
  have hcell : ∀ i, (if first.holdsPeer then cells.rt2Below else cells.rt2) = some i →
      cells.rt2 = some i := by
    intro i hi
    split at hi
    · exact hbelow i hi
    · exact hi
  unfold placeRt2
  rw [h.rt2.contains]
  generalize (if first.holdsPeer then cells.rt2Below else cells.rt2) = cell at hcell ⊢
  split
  · exact ⟨rfl, h⟩
  split
  · exact ⟨rfl, h⟩
  cases cell with
  | none => exact ⟨rfl, h⟩
  | some i =>
    obtain ⟨hout, hpolicy, hlike⟩ :=
      Shelf.looksLike_offer hw hw' h.policy h.rt2 ⟨cells, hown, hcell i rfl⟩
    refine ⟨hout, ?_, hlike, hpolicy⟩
    dsimp only
    rw [s.offer_other _ _ hne, s'.offer_other _ _ hne]
    exact h.rt1

/-- **A pair of tables places a peer locally.** -/
theorem looksLike_place (leaveToRt2 : Bool)
    (hw : ∀ kind ∈ [pair.rt1, pair.rt2], (s.tables.get kind).WellFormed)
    (hw' : ∀ kind ∈ [pair.rt1, pair.rt2], (s'.tables.get kind).WellFormed) :
    (pair.place leaveToRt2 cells candidate s').2 = (pair.place leaveToRt2 cells candidate s).2 ∧
      pair.LooksLike (pair.place leaveToRt2 cells candidate s').1
        (pair.place leaveToRt2 cells candidate s).1 candidate.node.hash own := by
  obtain ⟨hfirst, hlike⟩ := looksLike_placeRt1 hne hown h leaveToRt2 (hw _ (by simp))
    (hw' _ (by simp))
  have hw₂ : ((pair.placeRt1 leaveToRt2 cells candidate s).1.tables.get pair.rt2).WellFormed := by
    rw [placeRt1_other hne.symm]
    exact hw _ (by simp)
  have hw₂' : ((pair.placeRt1 leaveToRt2 cells candidate s').1.tables.get pair.rt2).WellFormed := by
    rw [placeRt1_other hne.symm]
    exact hw' _ (by simp)
  unfold place
  dsimp only
  rw [hfirst]
  obtain ⟨hsecond, hlike'⟩ := looksLike_placeRt2 hne hown hlike hbelow hw₂ hw₂'
  exact ⟨congrArg _ hsecond, hlike'⟩

end

end TablePair

/-! ## All tables -/

namespace Engine

/-- Two nodes look the same to a peer with the given cells, as far as RT1 and
    RT2 go. -/
structure LooksLike (e' e : Engine) (hash : UInt64) (own : Option Cells) : Prop where
  self : e'.self = e.self
  config : e'.config = e.config
  pair : (TablePair.primary e.config).LooksLike ⟨e'.tables, e'.rtPolicy⟩ ⟨e.tables, e.rtPolicy⟩
    hash own

variable {e e' : Engine} {own : Option Cells}

theorem looksLike_placePrimary (hw : ∀ kind ∈ [TableKind.rt1, .rt2], (e.tables.get kind).WellFormed)
    (hw' : ∀ kind ∈ [TableKind.rt1, .rt2], (e'.tables.get kind).WellFormed)
    (h : e'.LooksLike e candidate.node.hash own) {cells : Option Cells}
    (hcells : ∀ x ∈ cells, x ∈ own ∧ ∀ i, x.rt2Below = some i → x.rt2 = some i) :
    (e'.placePrimary cells candidate).2 = (e.placePrimary cells candidate).2 ∧
      (TablePair.primary e.config).LooksLike
        ⟨(e'.placePrimary cells candidate).1.tables, (e'.placePrimary cells candidate).1.rtPolicy⟩
        ⟨(e.placePrimary cells candidate).1.tables, (e.placePrimary cells candidate).1.rtPolicy⟩
        candidate.node.hash own := by
  cases cells with
  | none => exact ⟨rfl, h.pair⟩
  | some cells =>
    obtain ⟨hown, hbelow⟩ := hcells cells rfl
    unfold placePrimary
    dsimp only
    rw [h.config]
    exact TablePair.looksLike_place TableKind.noConfusion hown h.pair hbelow
      e.config.excludeRt2Scope hw hw'

/-- The neighborhood set comes first, and leaves RT1 and RT2 alone. -/
theorem LooksLike.placeNs {hash : UInt64} (h : e'.LooksLike e hash own) (candidate : Candidate) :
    (e'.placeNs candidate).1.LooksLike (e.placeNs candidate).1 hash own where
  self := by rw [(keeps_placeNs ..).self, (keeps_placeNs ..).self, h.self]
  config := by rw [(keeps_placeNs ..).config, (keeps_placeNs ..).config, h.config]
  pair := by
    have hne : ∀ kind ∈ [TableKind.rt1, .rt2], kind ≠ .ns := by decide
    rw [(keeps_placeNs ..).config]
    exact h.pair.congr (fun kind hk => placeNs_other (hne kind hk))
      (fun kind hk => placeNs_other (hne kind hk)) (rtPolicy_placeNs ..) (rtPolicy_placeNs ..)

/-- **Placements are local**: RT1 and RT2 take a peer in the same way if they
    look the same to it, and they look the same to it afterwards. -/
theorem looksLike_place (hw : ∀ kind ∈ [TableKind.rt1, .rt2], (e.tables.get kind).WellFormed)
    (hw' : ∀ kind ∈ [TableKind.rt1, .rt2], (e'.tables.get kind).WellFormed) {peer : NodeRecord}
    (h : e'.LooksLike e peer.hash own) {standing : Standing} (time : Timestamp)
    (hcells : ∀ x ∈ standing.cells, x ∈ own ∧ ∀ i, x.rt2Below = some i → x.rt2 = some i) :
    ((e'.place peer standing time).2.rt1 = (e.place peer standing time).2.rt1 ∧
      (e'.place peer standing time).2.rt2 = (e.place peer standing time).2.rt2) ∧
      (e'.place peer standing time).1.LooksLike (e.place peer standing time).1 peer.hash own := by
  have hkeeps := (e.places_place peer standing time).keeps
  have hkeeps' := (e'.places_place peer standing time).keeps
  have hne : ∀ kind ∈ [TableKind.rt1, .rt2], kind ≠ .ns ∧ kind ≠ .secRt1 ∧ kind ≠ .secRt2 := by
    decide
  generalize hc : Candidate.mk peer e.self.id standing.distance time = candidate
  have hc' : Candidate.mk peer e'.self.id standing.distance time = candidate := by rw [h.self, hc]
  obtain rfl : peer = candidate.node := by rw [← hc]
  have hw₁ : ∀ kind ∈ [TableKind.rt1, .rt2],
      ((e.placeNs candidate).1.tables.get kind).WellFormed := by
    intro kind hk
    rw [placeNs_other (hne kind hk).1]
    exact hw kind hk
  have hw₁' : ∀ kind ∈ [TableKind.rt1, .rt2],
      ((e'.placeNs candidate).1.tables.get kind).WellFormed := by
    intro kind hk
    rw [placeNs_other (hne kind hk).1]
    exact hw' kind hk
  obtain ⟨hout, hpair⟩ := looksLike_placePrimary hw₁ hw₁' (h.placeNs candidate) hcells
  refine ⟨?_, ?_, ?_, ?_⟩
  · rw [place_eq hc, place_eq hc']
    exact Prod.mk.inj hout
  · rw [hkeeps.self, hkeeps'.self, h.self]
  · rw [hkeeps.config, hkeeps'.config, h.config]
  · rw [(keeps_placeNs ..).config] at hpair
    rw [hkeeps.config]
    refine hpair.congr (fun kind hk => ?_) (fun kind hk => ?_) ?_ ?_
    · rw [e.routing_place _ standing time (hne kind hk).2.1 (hne kind hk).2.2, hc]
    · rw [e'.routing_place _ standing time (hne kind hk).2.1 (hne kind hk).2.2, hc']
    · rw [e.rtPolicy_place, hc]
    · rw [e'.rtPolicy_place, hc']

end Engine

end CubeRouting
