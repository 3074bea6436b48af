/-
  Placements that are made again.

  A peer that is placed a second time finds the tables as the first placement
  left them.  Where the first one stored it, it is present already; elsewhere
  the second one ends as the first one did (`Placement.settled`).  For RT2 this
  is so since a peer that RT1 has already counts as one that RT1 has admitted.

  * `Shelf.offer_again`, `TablePair.place_again`: one table, and a pair of
    tables that a policy without a memory fills;
  * `Engine.place_again`: the tables of a node without secure tables.
-/
import CubeRouting.Proofs.Placement.Report
import CubeRouting.Proofs.Policy.Repetition

namespace CubeRouting

/-! ## What comes of it -/

/-- The placement made again. -/
def Placement.settled (p : Placement) : Placement := if p.holdsPeer then .alreadyPresent else p

theorem Placement.holdsPeer_settled (p : Placement) : p.settled.holdsPeer = p.holdsPeer := by
  unfold settled
  split
  · rename_i hholds
    rw [hholds]
    rfl
  · rfl

namespace Report

/-- The report of a placement made again. -/
def settled (r : Report) : Report :=
  { r with
    ns := r.ns.settled
    rt1 := r.rt1.settled
    rt2 := r.rt2.settled
    secRt1 := r.secRt1.settled
    secRt2 := r.secRt2.settled }

theorem get_settled (r : Report) (kind : TableKind) : r.settled.get kind = (r.get kind).settled := by
  cases kind <;> rfl

end Report

/-! ## One table -/

theorem Placed.eq_of_declined {t t' : SubTable} {candidate : Candidate} {i : SlotIndex}
    (h : Placed t candidate (.considered i .declined) t') : t' = t := by
  generalize hp : Placement.considered i .declined = p at h
  cases h with
  | offered policy i' => exact SubTable.offer_declined (Placement.considered.inj hp).2.symm
  | _ => rfl

theorem RoutingTable.set_get (t : RoutingTable) (kind : TableKind) : t.set kind (t.get kind) = t := by
  cases kind <;> rfl

namespace Shelf

variable {s s' : Shelf} {kind : TableKind} {i : SlotIndex} {candidate : Candidate}

/-- A table that has the candidate is left alone. -/
theorem offer_stored (i : SlotIndex)
    (h : (s.tables.get kind).contains candidate.node.hash = true) :
    s.offer kind i candidate = (s, .alreadyPresent) := if_pos h

section
variable (hw : (s.tables.get kind).WellFormed) (hp : s.policy.IsSteady)
  (htable : s'.tables.get kind = (s.offer kind i candidate).1.tables.get kind)
include hw htable

/-- A candidate that was admitted is present. -/
theorem offer_held (hholds : (s.offer kind i candidate).2.holdsPeer = true) :
    (s'.tables.get kind).contains candidate.node.hash = true := by
  have hplaced := s.offer_placed kind i candidate
  rw [← htable] at hplaced
  rw [hplaced.contains_eq_holdsPeer hw fun hoff => ?_, hholds]
  rw [hoff] at hholds
  cases hholds

include hp

/-- **An offer made again** leaves the tables as they are. -/
theorem offer_again (hpolicy : s'.policy = (s.offer kind i candidate).1.policy)
    (time : Timestamp) : (s'.offer kind i (candidate.later time)).1.tables = s'.tables ∧
      (s'.offer kind i (candidate.later time)).2 = (s.offer kind i candidate).2.settled := by
  by_cases hholds : (s.offer kind i candidate).2.holdsPeer = true
  · have hoffer : s'.offer kind i (candidate.later time) = (s', .alreadyPresent) :=
      if_pos (offer_held hw htable hholds)
    rw [hoffer, Placement.settled, if_pos hholds]
    exact ⟨rfl, rfl⟩
  have hnew : (s.tables.get kind).contains candidate.node.hash = false := by
    by_contra hstored
    rw [Bool.not_eq_false] at hstored
    rw [offer_stored i hstored] at hholds
    exact hholds rfl
  have hfirst : s.offer kind i candidate =
      (⟨s.tables.set kind ((s.tables.get kind).offer s.policy candidate i).1,
        ((s.tables.get kind).offer s.policy candidate i).2.1⟩,
        .considered i ((s.tables.get kind).offer s.policy candidate i).2.2) := by
    rw [offer, if_neg (Bool.eq_false_iff.1 hnew)]
  have hdeclined : ((s.tables.get kind).offer s.policy candidate i).2.2 = .declined := by
    rw [hfirst] at hholds
    revert hholds
    dsimp only
    cases ((s.tables.get kind).offer s.policy candidate i).2.2 with
    | declined => exact fun _ => rfl
    | _ => exact fun hno => absurd rfl hno
  have hsame : ((s.tables.get kind).offer s.policy candidate i).1 = s.tables.get kind :=
    SubTable.offer_declined hdeclined
  rw [hfirst] at htable hpolicy
  dsimp only at htable hpolicy
  rw [RoutingTable.get_set, if_pos rfl, hsame] at htable
  obtain ⟨htable', hdeclined'⟩ := SubTable.offer_again hp hdeclined time
  rw [Placement.settled, if_neg hholds, hfirst, hdeclined, offer,
    if_neg (by rw [htable]; exact Bool.eq_false_iff.1 hnew), hpolicy, htable]
  dsimp only
  rw [htable', hdeclined', ← htable, RoutingTable.set_get]
  exact ⟨rfl, rfl⟩

end

end Shelf

/-! ## A pair of tables -/

/-- A policy that remembers nothing and looks at distances at most. -/
def Policy.IsPlain (p : Policy) : Prop := p = .simple ∨ p = .distance

theorem Policy.IsPlain.isSteady {p : Policy} (h : p.IsPlain) : p.IsSteady := by
  rcases h with rfl | rfl <;> trivial

theorem Shelf.policy_offer {s : Shelf} (hp : s.policy.IsPlain) (kind : TableKind) (i : SlotIndex)
    (candidate : Candidate) : (s.offer kind i candidate).1.policy = s.policy := by
  unfold offer
  dsimp only
  split
  · rfl
  · change (s.policy.decide _).2 = s.policy
    rcases hp with hp | hp <;> rw [hp] <;> rfl

namespace TablePair

variable {pair : TablePair} {leaveToRt2 : Bool} {cells : Cells} {candidate : Candidate}
  {first : Placement} {s s' : Shelf}

theorem policy_placeRt1 (hp : s.policy.IsPlain) :
    (pair.placeRt1 leaveToRt2 cells candidate s).1.policy = s.policy := by
  unfold placeRt1
  split
  · rfl
  split
  · rfl
  split
  · rfl
  split
  · rfl
  · exact Shelf.policy_offer hp ..

theorem policy_placeRt2 (hp : s.policy.IsPlain) :
    (pair.placeRt2 cells candidate first s).1.policy = s.policy := by
  unfold placeRt2
  split
  · rfl
  split
  · rfl
  split
  · exact Shelf.policy_offer hp ..
  · rfl

theorem policy_place (hp : s.policy.IsPlain) :
    (pair.place leaveToRt2 cells candidate s).1.policy = s.policy := by
  have hfirst : (pair.placeRt1 leaveToRt2 cells candidate s).1.policy = s.policy :=
    policy_placeRt1 hp
  unfold place
  dsimp only
  rw [policy_placeRt2 (by rwa [hfirst]), hfirst]

section
variable (hp : s.policy.IsPlain) (hpolicy : s'.policy = s.policy) (time : Timestamp)
include hp hpolicy

theorem placeRt1_again (hw : (s.tables.get pair.rt1).WellFormed)
    (htable : s'.tables.get pair.rt1 =
      (pair.placeRt1 leaveToRt2 cells candidate s).1.tables.get pair.rt1) :
    (pair.placeRt1 leaveToRt2 cells (candidate.later time) s').1.tables = s'.tables ∧
      (pair.placeRt1 leaveToRt2 cells (candidate.later time) s').2 =
        (pair.placeRt1 leaveToRt2 cells candidate s).2.settled := by
  unfold placeRt1 at htable ⊢
  by_cases hoff : (!(pair.useRt1 || pair.useRt2)) = true
  · rw [if_pos hoff, if_pos hoff]
    exact ⟨rfl, rfl⟩
  rw [if_neg hoff] at htable ⊢
  rw [if_neg hoff]
  by_cases hstored : (s.tables.get pair.rt1).contains candidate.node.hash = true
  · rw [if_pos hstored] at htable ⊢
    rw [if_pos (by rw [htable]; exact hstored)]
    exact ⟨rfl, rfl⟩
  rw [if_neg hstored] at htable ⊢
  by_cases hsibling : (!pair.useRt1 && !cells.sibling) = true
  · rw [if_pos hsibling] at htable ⊢
    rw [if_neg (by rw [htable]; exact hstored), if_pos hsibling]
    exact ⟨rfl, rfl⟩
  rw [if_neg hsibling] at htable ⊢
  by_cases hleave : (leaveToRt2 && cells.rt2Below.isSome) = true
  · rw [if_pos hleave] at htable ⊢
    rw [if_neg (by rw [htable]; exact hstored), if_neg hsibling, if_pos hleave]
    exact ⟨rfl, rfl⟩
  rw [if_neg hleave] at htable ⊢
  have hagain := Shelf.offer_again hw hp.isSteady htable
    (hpolicy.trans (Shelf.policy_offer hp ..).symm) time
  split
  · rename_i hheld
    rw [Shelf.offer_stored cells.rt1 hheld] at hagain
    exact hagain
  · exact hagain

/-- RT2 takes a peer of RT1 below its RT1 level, whether it is new to RT1 or
    not. -/
theorem placeRt2_again (hw : (s.tables.get pair.rt2).WellFormed)
    (htable : s'.tables.get pair.rt2 =
      (pair.placeRt2 cells candidate first s).1.tables.get pair.rt2) :
    (pair.placeRt2 cells (candidate.later time) first.settled s').1.tables = s'.tables ∧
      (pair.placeRt2 cells (candidate.later time) first.settled s').2 =
        (pair.placeRt2 cells candidate first s).2.settled := by
  unfold placeRt2 at htable ⊢
  rw [first.holdsPeer_settled]
  by_cases hoff : (!pair.useRt2) = true
  · rw [if_pos hoff, if_pos hoff]
    exact ⟨rfl, rfl⟩
  rw [if_neg hoff] at htable ⊢
  rw [if_neg hoff]
  by_cases hstored : (s.tables.get pair.rt2).contains candidate.node.hash = true
  · rw [if_pos hstored] at htable ⊢
    rw [if_pos (by rw [htable]; exact hstored)]
    exact ⟨rfl, rfl⟩
  rw [if_neg hstored] at htable ⊢
  generalize (if first.holdsPeer then cells.rt2Below else cells.rt2) = cell at htable ⊢
  cases cell with
  | none =>
    rw [if_neg (by rw [htable]; exact hstored)]
    exact ⟨rfl, rfl⟩
  | some i =>
    have hagain := Shelf.offer_again hw hp.isSteady htable
      (hpolicy.trans (Shelf.policy_offer hp ..).symm) time
    dsimp only
    split
    · rename_i hheld
      rw [Shelf.offer_stored i hheld] at hagain
      exact hagain
    · exact hagain

/-- **A pair of tables settles**: the second placement changes nothing. -/
theorem place_again (hne : pair.rt1 ≠ pair.rt2) (hw₁ : (s.tables.get pair.rt1).WellFormed)
    (hw₂ : (s.tables.get pair.rt2).WellFormed)
    (htables : s'.tables = (pair.place leaveToRt2 cells candidate s).1.tables) :
    (pair.place leaveToRt2 cells (candidate.later time) s').1.tables = s'.tables ∧
      (pair.place leaveToRt2 cells (candidate.later time) s').2.1 =
        (pair.place leaveToRt2 cells candidate s).2.1.settled ∧
      (pair.place leaveToRt2 cells (candidate.later time) s').2.2 =
        (pair.place leaveToRt2 cells candidate s).2.2.settled := by
  unfold place at htables ⊢
  dsimp only at htables ⊢
  have hrt2 : (pair.placeRt1 leaveToRt2 cells candidate s).1.tables.get pair.rt2 =
      s.tables.get pair.rt2 := placeRt1_other hne.symm
  have hplain : (pair.placeRt1 leaveToRt2 cells candidate s).1.policy = s.policy :=
    policy_placeRt1 hp
  have hplain' : (pair.placeRt1 leaveToRt2 cells (candidate.later time) s').1.policy = s'.policy :=
    policy_placeRt1 (by rw [hpolicy]; exact hp)
  have htable₁ : s'.tables.get pair.rt1 =
      (pair.placeRt1 leaveToRt2 cells candidate s).1.tables.get pair.rt1 := by
    rw [htables, placeRt2_other hne]
  obtain ⟨htables₁, hfirst⟩ := placeRt1_again hp hpolicy time hw₁ htable₁
  generalize pair.placeRt1 leaveToRt2 cells candidate s = r at hrt2 hplain hfirst htables ⊢
  generalize pair.placeRt1 leaveToRt2 cells (candidate.later time) s' = r' at htables₁ hfirst hplain' ⊢
  rw [hfirst]
  have htable₂ : r'.1.tables.get pair.rt2 =
      (pair.placeRt2 cells candidate r.2 r.1).1.tables.get pair.rt2 := by rw [htables₁, htables]
  obtain ⟨htables₂, hsecond⟩ := placeRt2_again (by rw [hplain]; exact hp)
    (by rw [hplain', hplain, hpolicy]) time (by rw [hrt2]; exact hw₂) htable₂
  exact ⟨htables₂.trans htables₁, rfl, hsecond⟩

end

end TablePair

/-! ## All tables -/

namespace Engine

variable {e e' : Engine} {candidate : Candidate} {cells : Option Cells}

theorem rtPolicy_placePrimary (hrt : e.rtPolicy.IsPlain) (cells : Option Cells)
    (candidate : Candidate) : (e.placePrimary cells candidate).1.rtPolicy = e.rtPolicy := by
  cases cells with
  | none => rfl
  | some cells => exact TablePair.policy_place (s := ⟨e.tables, e.rtPolicy⟩) hrt

theorem placeSecure_none (h : e.securePolicy = none) (cells : Option Cells)
    (candidate : Candidate) : e.placeSecure cells candidate = (e, .disabled, .disabled) := by
  unfold placeSecure
  rw [h]
  cases cells <;> rfl

theorem Keeps.secure_none (hk : e'.Keeps e) (h : e.securePolicy = none) :
    e'.securePolicy = none := by
  rw [← Option.isNone_iff_eq_none, ← Option.not_isSome, hk.secure, h]
  rfl

/-- The neighborhood set settles. -/
theorem placeNs_again (hw : (e.tables.get .ns).WellFormed) (hns : e.nsPolicy.IsSteady)
    (hconfig : e'.config = e.config)
    (htable : e'.tables.get .ns = (e.placeNs candidate).1.tables.get .ns)
    (hpolicy : e'.nsPolicy = (e.placeNs candidate).1.nsPolicy) (time : Timestamp) :
    (e'.placeNs (candidate.later time)).1.tables = e'.tables ∧
      (e'.placeNs (candidate.later time)).2 = (e.placeNs candidate).2.settled := by
  unfold placeNs at htable hpolicy ⊢
  rw [hconfig]
  by_cases huse : e.config.useNs = true
  · rw [if_pos huse] at htable hpolicy ⊢
    rw [if_pos huse]
    exact Shelf.offer_again (s := ⟨e.tables, e.nsPolicy⟩) hw hns htable hpolicy time
  · rw [if_neg huse, if_neg huse]
    exact ⟨rfl, rfl⟩

/-- **Under the balanced policy** the neighborhood set settles in whatever order
    its buckets come. -/
theorem Places.receive_again {r : Report} {p : Partition} {i : SlotIndex}
    (h : e.Places e' cells candidate r) (hpolicy : e.nsPolicy = .balanced p)
    (hdeclined : r.ns = .considered i .declined) (order : Balanced.BucketOrder)
    (time : Timestamp) : (e'.tables.get .ns).receive p i ⟨candidate.later time, order⟩ =
      (e'.tables.get .ns, .declined) := by
  have hns := h.ns
  obtain ⟨huse, -⟩ := h.ns_considered i _ hdeclined
  rw [hdeclined] at hns
  have hfirst : .considered i .declined =
      (Shelf.offer ⟨e.tables, e.nsPolicy⟩ .ns SlotRef.ns.index candidate).2 := by
    rw [← hdeclined, h.ns_offer.1, placeNs, if_pos huse]
  rw [hns.eq_of_declined]
  rw [Shelf.offer] at hfirst
  dsimp only at hfirst
  split at hfirst
  · cases hfirst
  · obtain ⟨rfl, ha⟩ := Placement.considered.inj hfirst
    rw [hpolicy, SubTable.offer_balanced] at ha
    exact SubTable.receive_again ha.symm order time

/-- RT1 and RT2 settle. -/
theorem placePrimary_again (hw : ∀ kind, kind ≠ .ns → (e.tables.get kind).WellFormed)
    (hrt : e.rtPolicy.IsPlain) (hconfig : e'.config = e.config) (hpolicy : e'.rtPolicy = e.rtPolicy)
    (htables : e'.tables = (e.placePrimary cells candidate).1.tables) (time : Timestamp) :
    (e'.placePrimary cells (candidate.later time)).1.tables = e'.tables ∧
      (e'.placePrimary cells (candidate.later time)).2.1 =
        (e.placePrimary cells candidate).2.1.settled ∧
      (e'.placePrimary cells (candidate.later time)).2.2 =
        (e.placePrimary cells candidate).2.2.settled := by
  cases cells with
  | none => exact ⟨rfl, rfl, rfl⟩
  | some cells =>
    unfold placePrimary at htables ⊢
    dsimp only at htables ⊢
    rw [hconfig]
    exact TablePair.place_again (s := ⟨e.tables, e.rtPolicy⟩) hrt hpolicy time
      TableKind.noConfusion (hw .rt1 TableKind.noConfusion) (hw .rt2 TableKind.noConfusion) htables

/-- **Placing a peer again changes nothing**, at whatever time: it is present
    where the first placement stored it, and ends as before elsewhere. -/
theorem place_again (hw : ∀ kind, (e.tables.get kind).WellFormed) (hns : e.nsPolicy.IsSteady)
    (hrt : e.rtPolicy.IsPlain) (hsecure : e.securePolicy = none) (peer : NodeRecord)
    (standing : Standing) (time : Timestamp)
    (hsame : e'.SameState (e.place peer standing time).1) (time' : Timestamp) :
    (e'.place peer standing time').1.tables = e'.tables ∧
      (e'.place peer standing time').2 = (e.place peer standing time).2.settled := by
  generalize hc : Candidate.mk peer e.self.id standing.distance time = candidate
  have hc' : Candidate.mk peer e'.self.id standing.distance time' = candidate.later time' := by
    have hplaces := e.places_place peer standing time
    rw [hsame.self, hplaces.keeps.self, ← hc]
    rfl
  rw [place_eq hc] at hsame ⊢
  rw [place_eq hc']
  dsimp only at hsame ⊢
  -- the placements of the first time
  have hka := e.keeps_placeNs candidate
  have hkb := (e.placeNs candidate).1.keeps_placePrimary standing.cells candidate
  have hrta : (e.placeNs candidate).1.rtPolicy.IsPlain := by rwa [rtPolicy_placeNs]
  have hrtb := rtPolicy_placePrimary hrta standing.cells candidate
  have hnsb := nsPolicy_placePrimary (e.placeNs candidate).1 standing.cells candidate
  have hnsTable : ((e.placeNs candidate).1.placePrimary standing.cells candidate).1.tables.get .ns =
      (e.placeNs candidate).1.tables.get .ns := placePrimary_other (by decide) (by decide)
  have hwa : ∀ kind, kind ≠ .ns → ((e.placeNs candidate).1.tables.get kind).WellFormed := by
    intro kind hne
    rw [placeNs_other hne]
    exact hw kind
  rw [placeSecure_none ((hkb.trans hka).secure_none hsecure)] at hsame ⊢
  dsimp only at hsame ⊢
  -- those of the second time
  have hka' := e'.keeps_placeNs (candidate.later time')
  have hkb' := (e'.placeNs (candidate.later time')).1.keeps_placePrimary standing.cells
    (candidate.later time')
  have hrta' := e'.rtPolicy_placeNs (candidate.later time')
  obtain ⟨htables₁, hns'⟩ := placeNs_again (hw .ns) hns (hsame.config.trans (hkb.trans hka).config)
    (by rw [hsame.tables, hnsTable]) (hsame.nsPolicy.trans hnsb) time'
  obtain ⟨htables₂, hrt1', hrt2'⟩ := placePrimary_again hwa hrta
    (hka'.config.trans (hsame.config.trans hkb.config))
    (hrta'.trans (hsame.rtPolicy.trans hrtb)) (htables₁.trans hsame.tables) time'
  have hsecure' : e'.securePolicy = none := by
    rw [hsame.securePolicy]
    exact (hkb.trans hka).secure_none hsecure
  rw [placeSecure_none ((hkb'.trans hka').secure_none hsecure'), hns', hrt1', hrt2']
  exact ⟨htables₂.trans htables₁, rfl⟩

end Engine

end CubeRouting
