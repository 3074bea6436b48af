/-
  What the evenness policy does to a table.

  A `Rule` is all that the policy goes by, in any arithmetic.  Without rounding,
  and whatever powers are, a member of a full slot only makes room if that lowers
  the objective of the slot.

  * `Rule.offer_cases`, `Rule.advance_offer`: what one offer does;
  * `Rule.finite_replacements`: members make room finitely often;
  * `Rule.evenness_descends`: the objectives of swaps, one offer and any number
    of them.
-/
import CubeRouting.Proofs.Policy.Buckets
import CubeRouting.Proofs.Policy.Swaps
import CubeRouting.Proofs.Table.Scan

namespace CubeRouting

namespace SubTable

/-! ## Taking the place of a member -/

section
variable {t : SubTable} {e w : Entry} {v : Nat} (hw : t.WellFormed)
  (hv : (t.slot e.slot.index)[v]? = some w) (hnew : t.contains e.hash = false)
include hw hv hnew

/-- **An entry in place of a member** has its position. -/
theorem WellFormed.slot_replace :
    ((t.remove w.hash).1.insert v e).slot e.slot.index = (t.slot e.slot.index).set v e := by
  have haccepts := hw.accepts_remove (List.mem_of_getElem? hv) hnew
  obtain ⟨hlt, -⟩ := List.getElem?_eq_some_iff.1 hv
  have hmin : min v ((t.slot e.slot.index).eraseIdx v).length = v := by
    rw [List.length_eraseIdx_of_lt hlt]
    omega
  rw [slot_insert haccepts, if_pos rfl, hw.slot_remove_eq_eraseIdx hv, hmin,
    List.insertIdx_eraseIdx_self hlt.ne]

/-- The other slots stay as they are. -/
theorem WellFormed.slot_replace_of_ne {i : SlotIndex} (hi : e.slot.index ≠ i) :
    ((t.remove w.hash).1.insert v e).slot i = t.slot i := by
  have hmem := List.mem_of_getElem? hv
  rw [slot_insert (hw.accepts_remove hmem hnew), if_neg hi, hw.slot_remove, List.filter_eq_self]
  intro e' he'
  rw [bne_iff_ne]
  exact fun hh => hi (hw.slot_unique hmem he' hh.symm)

end

end SubTable

namespace Evenness

/-! ## Rules -/

/-- What the evenness policy goes by, in the arithmetic of `R`. -/
structure Rule (R : Type) where
  metric : Metric
  weights : EvennessWeights R
  /-- The recorded distances as numbers. -/
  read : Binary64 → R

namespace Rule

section
variable {R : Type} [Scalar R] (r : Rule R)

omit [Scalar R] in
/-- A peer as the objective sees it. -/
def point (e : Entry) : SpreadPoint R := ⟨e.node.id, r.read e.distance⟩

/-- Swaps that lower the objective are made. -/
def move (o : Offer) : Move :=
  if o.isFull then
    match victim? r.metric r.weights (o.members.map r.point) (r.point o.entry) with
    | some i => .replace i i
    | none => .decline
  else .insert o.members.length

/-- A table after a candidate was offered to one of its slots, and what came of
    it. -/
def offer (t : SubTable) (candidate : Candidate) (i : SlotIndex) : SubTable × Admission :=
  let o := t.offerOf candidate i
  t.carryOut ⟨o.unlessStored (r.move o), o.entry⟩

/-- The table after a number of offers to its slots. -/
def after (t : SubTable) (candidates : ℕ → Candidate) (slots : ℕ → SlotIndex) : ℕ → SubTable
  | 0 => t
  | n + 1 => (r.offer (after t candidates slots n) (candidates n) (slots n)).1

/-- The offers in which a member made room. -/
def replacements (t : SubTable) (candidates : ℕ → Candidate) (slots : ℕ → SlotIndex) : Set ℕ :=
  {n | ∃ hash, (r.offer (r.after t candidates slots n) (candidates n) (slots n)).2 =
    .replaced hash}

end

/-- The policy of the program goes by the recorded distances as they are. -/
theorem offer_evenness (m : Metric) (w : EvennessWeights Binary64) (t : SubTable)
    (candidate : Candidate) (i : SlotIndex) :
    t.offer (.evenness m w) candidate i = (((⟨m, w, id⟩ : Rule Binary64).offer t candidate i).1,
      .evenness m w, ((⟨m, w, id⟩ : Rule Binary64).offer t candidate i).2) := rfl

section
variable {power : ℝ → ℝ → ℝ} (r : Rule (Exact power)) {t : SubTable} {candidate : Candidate}
  {i : SlotIndex} {v : Nat}

/-- The objective of the members of a slot. -/
noncomputable def objective (members : List Entry) : Exact power :=
  objectiveOf r.metric r.weights (members.map r.point)

/-- The member at `v` makes room for the candidate: the table does not have the
    candidate, it has a distance to all members, and this swap is the best one and
    lowers the objective. -/
structure Swaps (o : Offer) (v : Nat) : Prop where
  new : o.stored = false
  shape : ∀ e ∈ o.members, e.node.id.shape = o.candidate.node.id.shape
  best : IsBestSwap r.metric r.weights (o.members.map r.point) (r.point o.entry) v

variable {r}

theorem Swaps.objective_lt {o : Offer} (h : r.Swaps o v) :
    r.objective (o.members.set v o.entry) < r.objective o.members := by
  rw [objective, objective, List.map_set]
  exact h.best.lowers

/-- Whom the swap takes out is a member. -/
theorem Swaps.exists_member {o : Offer} (h : r.Swaps o v) : ∃ w, o.members[v]? = some w := by
  have hlt := h.best.best.lt
  rw [List.length_map] at hlt
  exact ⟨_, List.getElem?_eq_getElem hlt⟩

variable (r)

/-- **The move on an offer.** -/
theorem move_cases (o : Offer) :
    (o.isFull = false ∧ o.unlessStored (r.move o) = o.unlessStored (.insert o.members.length)) ∨
    (o.isFull = true ∧ o.unlessStored (r.move o) = .decline ∧ ∀ v, ¬r.Swaps o v) ∨
    o.isFull = true ∧ ∃ v, o.unlessStored (r.move o) = .replace v v ∧ r.Swaps o v := by
  rw [move]
  cases hfull : o.isFull with
  | false => exact Or.inl ⟨rfl, rfl⟩
  | true =>
    refine Or.inr ?_
    cases hstored : o.stored with
    | true =>
      refine Or.inl ⟨rfl, if_pos hstored, fun v h => ?_⟩
      rw [h.new] at hstored
      cases hstored
    | false =>
      have hswaps : ∀ v, victim? r.metric r.weights (o.members.map r.point) (r.point o.entry) =
          some v ↔ r.Swaps o v := fun v => by
        rw [victim?_eq_some_iff, List.forall_mem_map]
        exact ⟨fun ⟨hs, hbest⟩ => ⟨hstored, hs, hbest⟩, fun h => ⟨h.shape, h.best⟩⟩
      simp only [Offer.unlessStored, hstored, Bool.false_eq_true, if_false, if_true]
      cases hv : victim? r.metric r.weights (o.members.map r.point) (r.point o.entry) with
      | none => exact Or.inl ⟨trivial, rfl, fun v h => by simp [(hswaps v).2 h] at hv⟩
      | some v => exact Or.inr ⟨trivial, v, rfl, (hswaps v).1 hv⟩

/-- **What the policy does with an offer**: it is declined, the candidate is added
    to a slot with room, or it takes the place of a member of a full slot. -/
theorem offer_cases (t : SubTable) (candidate : Candidate) (i : SlotIndex) :
    (r.offer t candidate i = (t, .declined) ∧
      (t.capacity ≤ (t.slot i).length → ∀ v, ¬r.Swaps (t.offerOf candidate i) v)) ∨
    (t.accepts (t.entryOf candidate i) = true ∧
      r.offer t candidate i = (t.insert (t.slot i).length (t.entryOf candidate i), .admitted)) ∨
    ∃ v w, t.capacity ≤ (t.slot i).length ∧ r.Swaps (t.offerOf candidate i) v ∧
      (t.slot i)[v]? = some w ∧
      r.offer t candidate i =
        ((t.remove w.hash).1.insert v (t.entryOf candidate i), .replaced w.hash) := by
  have hoffer : r.offer t candidate i = t.carryOut ⟨(t.offerOf candidate i).unlessStored
      (r.move (t.offerOf candidate i)), t.entryOf candidate i⟩ := rfl
  obtain ⟨hroom, hmove⟩ | ⟨-, hmove, hno⟩ | ⟨hfull, v, hmove, hswaps⟩ :=
    r.move_cases (t.offerOf candidate i)
  · have hroom : ¬t.capacity ≤ (t.slot i).length := of_decide_eq_false hroom
    rw [hoffer, hmove, Offer.unlessStored]
    split
    · exact Or.inl ⟨rfl, fun hfull => absurd hfull hroom⟩
    · rename_i hnew
      have haccepts : t.accepts (t.entryOf candidate i) = true :=
        SubTable.accepts_iff.2 ⟨Nat.not_le.1 hroom, eq_false_of_ne_true hnew⟩
      refine Or.inr (Or.inl ⟨haccepts, ?_⟩)
      simp only [SubTable.carryOut, haccepts, if_true]
      rfl
  · rw [hoffer, hmove]
    exact Or.inl ⟨rfl, fun _ => hno⟩
  · obtain ⟨w, hv⟩ := hswaps.exists_member
    have hv : (t.slot i)[v]? = some w := hv
    have hnew : t.contains (t.entryOf candidate i).hash = false := hswaps.new
    rw [hoffer, hmove, SubTable.carryOut_replace (e := t.entryOf candidate i) hv hnew]
    exact Or.inr (Or.inr ⟨v, w, of_decide_eq_true hfull, hswaps, hv, rfl⟩)

/-! ## One offer -/

/-- A table after a candidate was offered to one of its slots. -/
structure Advance (t t' : SubTable) (candidate : Candidate) : Prop where
  wellFormed : t'.WellFormed
  grid : t'.SameGrid t
  mem : ∀ i, ∀ e ∈ t'.slot i, e.node = candidate.node ∨ e ∈ t.slot i
  /-- A full slot stays full, and its objective does not grow. -/
  full : ∀ i, t.capacity ≤ (t.slot i).length →
    t'.capacity ≤ (t'.slot i).length ∧ r.objective (t'.slot i) ≤ r.objective (t.slot i)

theorem advance_insert (hw : t.WellFormed) (hi : t.InGrid i)
    (haccepts : t.accepts (t.entryOf candidate i) = true) (position : Nat) :
    r.Advance t (t.insert position (t.entryOf candidate i)) candidate := by
  have hgrid := t.sameGrid_insert position (t.entryOf candidate i)
  refine ⟨hw.insert _ rfl hi rfl, hgrid, fun j e' he' => ?_, fun j hj => ?_⟩
  · rcases (SubTable.mem_slot_insert haccepts).1 he' with ⟨rfl, -⟩ | he'
    · exact Or.inl rfl
    · exact Or.inr he'
  · have hij : (t.entryOf candidate i).slot.index ≠ j := by
      rintro rfl
      exact absurd (SubTable.accepts_iff.1 haccepts).1 (Nat.not_lt.2 hj)
    rw [SubTable.slot_insert haccepts, hgrid.capacity, if_neg hij]
    exact ⟨hj, le_rfl⟩

section
variable {w : Entry} (hw : t.WellFormed) (hswaps : r.Swaps (t.offerOf candidate i) v)
  (hv : (t.slot i)[v]? = some w)
include hw hswaps hv

theorem slot_replace_self : ((t.remove w.hash).1.insert v (t.entryOf candidate i)).slot i =
    (t.slot i).set v (t.entryOf candidate i) :=
  hw.slot_replace (e := t.entryOf candidate i) hv hswaps.new

theorem objective_replace_lt :
    r.objective (((t.remove w.hash).1.insert v (t.entryOf candidate i)).slot i) <
      r.objective (t.slot i) := by
  rw [r.slot_replace_self hw hswaps hv]
  exact hswaps.objective_lt

theorem advance_replace (hi : t.InGrid i) :
    r.Advance t ((t.remove w.hash).1.insert v (t.entryOf candidate i)) candidate := by
  have hgrid := t.sameGrid_insert_remove w.hash v (t.entryOf candidate i)
  have hself := r.slot_replace_self hw hswaps hv
  have hother : ∀ j, i ≠ j →
      ((t.remove w.hash).1.insert v (t.entryOf candidate i)).slot j = t.slot j :=
    fun j hij => hw.slot_replace_of_ne (e := t.entryOf candidate i) hv hswaps.new hij
  refine ⟨hw.insert_remove _ _ rfl hi rfl, hgrid, fun j e' he' => ?_, fun j hj => ?_⟩
  · rcases eq_or_ne i j with rfl | hij
    · rw [hself] at he'
      rcases List.mem_or_eq_of_mem_set he' with he' | rfl
      · exact Or.inr he'
      · exact Or.inl rfl
    · rw [hother j hij] at he'
      exact Or.inr he'
  · rw [hgrid.capacity]
    rcases eq_or_ne i j with rfl | hij
    · refine ⟨?_, (r.objective_replace_lt hw hswaps hv).le⟩
      rw [hself, List.length_set]
      exact hj
    · rw [hother j hij]
      exact ⟨hj, le_rfl⟩

end

/-- **One offer.**  When a member makes room, its slot was full and the objective
    of the slot decreases. -/
theorem advance_offer (hw : t.WellFormed) (hi : t.InGrid i) (candidate : Candidate) :
    r.Advance t (r.offer t candidate i).1 candidate ∧
      ∀ hash, (r.offer t candidate i).2 = .replaced hash → t.capacity ≤ (t.slot i).length ∧
        r.objective ((r.offer t candidate i).1.slot i) < r.objective (t.slot i) := by
  obtain ⟨h, -⟩ | ⟨haccepts, h⟩ | ⟨v, w, hfull, hswaps, hv, h⟩ := r.offer_cases t candidate i
  · rw [h]
    exact ⟨⟨hw, .refl t, fun j e he => Or.inr he, fun j hj => ⟨hj, le_rfl⟩⟩,
      fun hash hrep => by cases hrep⟩
  · rw [h]
    exact ⟨r.advance_insert hw hi haccepts _, fun hash hrep => by cases hrep⟩
  · rw [h]
    exact ⟨r.advance_replace hw hswaps hv hi,
      fun hash _ => ⟨hfull, r.objective_replace_lt hw hswaps hv⟩⟩

/-! ## Any number of offers -/

/-- There are finitely many objectives of as many members, if these have finitely
    many identifiers, since there are finitely many distances. -/
theorem finite_objectives {ids : Set Identifier} (hids : ids.Finite) (k : Nat) :
    {x | ∃ members : List Entry, members.length = k ∧ (∀ e ∈ members, e.node.id ∈ ids) ∧
      r.objective members = x}.Finite := by
  have := hids.to_subtype
  refine ((List.finite_length_eq (ids × Binary64) k).image fun l => objectiveOf r.metric r.weights
    (l.map fun (id, distance) => ⟨id.1, r.read distance⟩)).subset ?_
  rintro x ⟨members, hlen, hmem, rfl⟩
  refine ⟨members.attach.map fun e => (⟨e.1.node.id, hmem e.1 e.2⟩, e.1.distance),
    by simpa using hlen, ?_⟩
  dsimp only
  rw [objective, List.map_map]
  exact congrArg _ (List.attach_map_val (f := r.point))

section
variable (hw : t.WellFormed) {candidates : ℕ → Candidate} {slots : ℕ → SlotIndex}
  (hgrid : ∀ n, t.InGrid (slots n))
include hw hgrid

theorem wellFormed_after (n : ℕ) : (r.after t candidates slots n).WellFormed ∧
    (r.after t candidates slots n).SameGrid t := by
  induction n with
  | zero => exact ⟨hw, .refl t⟩
  | succ n ih =>
    have hstep := (r.advance_offer ih.1 (ih.2.inGrid_iff.2 (hgrid n)) (candidates n)).1
    exact ⟨hstep.wellFormed, hstep.grid.trans ih.2⟩

/-- Every offer is one to a well-formed table. -/
theorem advance_after (n : ℕ) :
    r.Advance (r.after t candidates slots n) (r.after t candidates slots (n + 1)) (candidates n) ∧
      (n ∈ r.replacements t candidates slots →
        (r.after t candidates slots n).capacity ≤
          ((r.after t candidates slots n).slot (slots n)).length ∧
        r.objective ((r.after t candidates slots (n + 1)).slot (slots n)) <
          r.objective ((r.after t candidates slots n).slot (slots n))) := by
  obtain ⟨hn, hsame⟩ := r.wellFormed_after hw hgrid n
  obtain ⟨hstep, hlt⟩ := r.advance_offer hn (hsame.inGrid_iff.2 (hgrid n)) (candidates n)
  exact ⟨hstep, fun ⟨hash, h⟩ => hlt hash h⟩

/-- **From when a slot is full** its objective does not grow. -/
theorem objective_after_le {m n : ℕ} (hmn : m ≤ n) (i : SlotIndex)
    (hfull : (r.after t candidates slots m).capacity ≤
      ((r.after t candidates slots m).slot i).length) :
    (r.after t candidates slots n).capacity ≤ ((r.after t candidates slots n).slot i).length ∧
      r.objective ((r.after t candidates slots n).slot i) ≤
        r.objective ((r.after t candidates slots m).slot i) := by
  induction n, hmn using Nat.le_induction with
  | base => exact ⟨hfull, le_rfl⟩
  | succ n _ ih =>
    obtain ⟨hfull', hle⟩ := (r.advance_after hw hgrid n).1.full i ih.1
    exact ⟨hfull', hle.trans ih.2⟩

/-- The members have been there from the start or have been offered. -/
theorem mem_after (n : ℕ) (i : SlotIndex) : ∀ e ∈ (r.after t candidates slots n).slot i,
    e ∈ t.slot i ∨ ∃ m, e.node = (candidates m).node := by
  induction n with
  | zero => exact fun e he => Or.inl he
  | succ n ih =>
    intro e he
    rcases (r.advance_after hw hgrid n).1.mem i e he with h | h
    · exact Or.inr ⟨n, h⟩
    · exact ih e h

variable (hpeers : (Set.range fun n => (candidates n).node.id).Finite)
include hpeers

/-- The members of one slot make room finitely often. -/
theorem finite_replacements_at (i : SlotIndex) :
    {n | n ∈ r.replacements t candidates slots ∧ slots n = i}.Finite := by
  let objectives : ℕ → Exact power := fun n => r.objective ((r.after t candidates slots n).slot i)
  let ids : Set Identifier :=
    (·.node.id) '' {e | e ∈ t.slot i} ∪ Set.range fun n => (candidates n).node.id
  have hids : ids.Finite := ((List.finite_toSet _).image _).union hpeers
  have hanti : StrictAntiOn objectives
      {n | n ∈ r.replacements t candidates slots ∧ slots n = i} := by
    rintro m ⟨hm, rfl⟩ n - hmn
    obtain ⟨hstep, hrep⟩ := r.advance_after hw hgrid m
    obtain ⟨hfull, hlower⟩ := hrep hm
    exact (r.objective_after_le hw hgrid hmn (slots m) (hstep.full _ hfull).1).2.trans_lt hlower
  -- an objective is not met twice, and there are finitely many that the slot may have
  refine Set.Finite.of_injOn ?_ hanti.injOn (r.finite_objectives hids t.capacity)
  rintro n ⟨hn, rfl⟩
  obtain ⟨hwn, hsame⟩ := r.wellFormed_after hw hgrid n
  have hlen := ((r.advance_after hw hgrid n).2 hn).1.antisymm' (hwn.length_le (slots n))
  refine ⟨_, hlen.trans hsame.capacity, fun e he => ?_, rfl⟩
  rcases r.mem_after hw hgrid n _ e he with h | ⟨m, h⟩
  · exact Or.inl ⟨e, h, rfl⟩
  · exact Or.inr ⟨m, by rw [h]⟩

/-- **Members make room finitely often.** -/
theorem finite_replacements : (r.replacements t candidates slots).Finite := by
  refine ((List.finite_toSet t.cells).biUnion fun i _ =>
    r.finite_replacements_at hw hgrid hpeers i).subset fun n hn => ?_
  exact Set.mem_biUnion (SubTable.mem_cells.2 (hgrid n)) ⟨hn, rfl⟩

/-- **The evenness policy.**  Without rounding, and whatever powers are, the
    objectives of the swaps are those of the members after each swap.  In a full
    slot the first best swap is made if it lowers the objective; otherwise the
    candidate is declined.  So the objective decreases whenever a member makes
    room, and offers of finitely many peers do this finitely often. -/
theorem evenness_descends :
    (∀ (m : Metric) (weights : EvennessWeights Binary64) (u : SubTable) (candidate : Candidate)
      (i : SlotIndex), u.offer (.evenness m weights) candidate i =
        (((⟨m, weights, id⟩ : Rule Binary64).offer u candidate i).1, .evenness m weights,
          ((⟨m, weights, id⟩ : Rule Binary64).offer u candidate i).2)) ∧
    (∀ (points : List (SpreadPoint (Exact power))) (candidate : SpreadPoint (Exact power)),
      (∀ p ∈ points, p.id.shape = candidate.id.shape) → ∃ rows toCandidate,
        pairwise r.metric points = .ok rows ∧
        points.mapM (fun p => r.metric.measure p.id candidate.id) = .ok toCandidate ∧
        swapObjectives r.weights points rows toCandidate candidate.distance =
          (List.range points.length).map (fun i =>
            objectiveOf r.metric r.weights (points.set i candidate)) ∧
        bestSwap r.metric r.weights points candidate =
          .ok ((firstLeast ((List.range points.length).map fun i =>
            objectiveOf r.metric r.weights (points.set i candidate))).map
              fun (i, swapped) => ⟨i, swapped, objectiveOf r.metric r.weights points⟩)) ∧
    (∀ (u : SubTable) (candidate : Candidate) (i : SlotIndex), u.WellFormed →
      u.capacity ≤ (u.slot i).length →
      (∀ v, r.Swaps (u.offerOf candidate i) v → ∃ w, (u.slot i)[v]? = some w ∧
        (r.offer u candidate i).2 = .replaced w.hash ∧
        (r.offer u candidate i).1.slot i = (u.slot i).set v (u.entryOf candidate i)) ∧
      ((∀ v, ¬r.Swaps (u.offerOf candidate i) v) → r.offer u candidate i = (u, .declined))) ∧
    (∀ n hash,
      (r.offer (r.after t candidates slots n) (candidates n) (slots n)).2 = .replaced hash →
      r.objective ((r.after t candidates slots (n + 1)).slot (slots n)) <
        r.objective ((r.after t candidates slots n).slot (slots n))) ∧
    {n | ∃ hash, (r.offer (r.after t candidates slots n) (candidates n) (slots n)).2 =
      .replaced hash}.Finite := by
  refine ⟨offer_evenness, fun points candidate hs => ?_, fun u candidate i hu hfull => ?_,
    fun n hash h => ((r.advance_after hw hgrid n).2 ⟨hash, h⟩).2,
    r.finite_replacements hw hgrid hpeers⟩
  · exact ⟨_, _, pairwise_eq hs, mapM_measure_eq hs, swapObjectives_eq hs, bestSwap_eq hs⟩
  · obtain ⟨h, hno⟩ | ⟨haccepts, -⟩ | ⟨v, w, -, hswaps, hv, h⟩ := r.offer_cases u candidate i
    · exact ⟨fun v hv => absurd hv (hno hfull v), fun _ => h⟩
    · exact absurd (SubTable.accepts_iff.1 haccepts).1 (Nat.not_lt.2 hfull)
    · refine ⟨fun v' hswaps' => ?_, fun hno => absurd hswaps (hno v)⟩
      obtain rfl := hswaps'.best.best.unique hswaps.best.best
      rw [h]
      exact ⟨w, hv, rfl, r.slot_replace_self hu hswaps hv⟩

end

end

/-- A peer next to one member of a full slot takes the place of the other. -/
theorem evenness_descends_neighbor :
    ∃ (r : Rule (Exact fun x y => x ^ y)) (t : SubTable) (near : Candidate), t.WellFormed ∧
    t.capacity ≤ (t.slot SlotRef.ns.index).length ∧
    r.Swaps (t.offerOf near SlotRef.ns.index) 1 ∧
    (∃ w, (t.slot SlotRef.ns.index)[1]? = some w ∧
      (r.offer t near SlotRef.ns.index).2 = .replaced w.hash) ∧
    r.objective ((r.offer t near SlotRef.ns.index).1.slot SlotRef.ns.index) <
      r.objective (t.slot SlotRef.ns.index) ∧
    {n | ∃ hash, (r.offer (r.after t (fun _ => near) (fun _ => SlotRef.ns.index) n) near
      SlotRef.ns.index).2 = .replaced hash}.Finite := by
  let s : Shape := .mk 2 4
  -- all peers are at distance one from the node
  let candidate (bits : Nat → Bool) : Candidate :=
    { node := .keyed Identifier.hash (.ofFn s bits) "10.0.0.2:7000"
      self := .zero s
      distance := ⟨0x3ff0000000000000⟩
      time := .ofMillis 0 }
  let r : Rule (Exact fun x y => x ^ y) := ⟨.chebyshev, ⟨1, 1, 1, 1⟩, fun _ => 1⟩
  let policy : Policy := .evenness .chebyshev ⟨1, 1, 1, 1⟩
  let t : SubTable := (((SubTable.empty .ns 1 1 2).offer policy (candidate (6 ≤ ·))
    SlotRef.ns.index).1.offer policy (candidate fun _ => true) SlotRef.ns.index).1
  let entry (bits : Nat → Bool) : Entry :=
    (SubTable.empty .ns 1 1 2).entryOf (candidate bits) SlotRef.ns.index
  let near : Candidate := candidate (· == 6)
  have hw : t.WellFormed :=
    ((SubTable.wellFormed_empty .ns 1 1 2).offer _ _ ⟨by decide, by decide⟩).offer _ _
      ((SubTable.sameGrid_offer ..).inGrid_iff.2 ⟨by decide, by decide⟩)
  have hfull : t.capacity ≤ (t.slot SlotRef.ns.index).length := by decide +kernel
  have hslot : t.slot SlotRef.ns.index = [entry (6 ≤ ·), entry fun _ => true] := by
    decide +kernel
  let peer (bits : Nat → Bool) : SpreadPoint (Exact fun x y => x ^ y) := ⟨.ofFn s bits, 1⟩
  have hobjective : ∀ (x y : Nat → Bool) (k : Nat),
      (Finset.range 2).sup ((Identifier.ofFn s x).axisGap (.ofFn s y)) = k →
      objectiveOf .chebyshev r.weights [peer x, peer y] = (k + 1 : Exact _) := by
    intro x y k hk
    have hd : peerDistance .chebyshev (peer x) (peer y) = (k : Exact _) := by
      rw [peerDistance_chebyshev (peer x) (peer y) rfl]
      exact congrArg Nat.cast hk
    have hpow : ∀ d : Exact fun x y => x ^ y, Scalar.pow d 1 = d := Real.rpow_one
    rw [objectiveOf_pair, hd]
    change 1 * Scalar.pow _ 1 + 1 * Scalar.pow ((1 + 1) / 2) 1 = _
    rw [hpow, hpow]
    norm_num
  have hold := hobjective (6 ≤ ·) (fun _ => true) 2 (by decide +kernel)
  have hfirst := hobjective (· == 6) (fun _ => true) 2 (by decide +kernel)
  have hsecond := hobjective (6 ≤ ·) (· == 6) 1 (by decide +kernel)
  have hlt : ((1 : ℕ) + 1 : Exact fun x y => x ^ y) < (2 : ℕ) + 1 := by norm_num
  have hbest : IsBestSwap .chebyshev r.weights [peer (6 ≤ ·), peer fun _ => true]
      (peer (· == 6)) 1 := by
    refine ⟨⟨Nat.one_lt_two, fun i hi => ?_, fun i hi => ?_⟩, ?_⟩
    · change objectiveOf .chebyshev r.weights [peer (6 ≤ ·), peer (· == 6)] ≤ _
      rw [hsecond]
      rcases i with _ | _ | i
      · exact hlt.le.trans hfirst.ge
      · exact hsecond.ge
      · exact absurd hi (by simp)
    · obtain rfl := Nat.lt_one_iff.1 hi
      exact hsecond.trans_lt (hlt.trans_eq hfirst.symm)
    · exact hsecond.trans_lt (hlt.trans_eq hold.symm)
  have hswaps : r.Swaps (t.offerOf near SlotRef.ns.index) 1 := by
    refine ⟨by decide +kernel, ?_, ?_⟩
    · change ∀ e ∈ t.slot SlotRef.ns.index, _
      rw [hslot]
      intro e he
      rcases List.mem_pair.1 he with rfl | rfl <;> rfl
    · change IsBestSwap _ _ ((t.slot SlotRef.ns.index).map r.point) _ 1
      rw [hslot]
      exact hbest
  have hin : t.InGrid SlotRef.ns.index := ⟨by decide +kernel, by decide +kernel⟩
  have hgrid : ∀ n, t.InGrid ((fun _ => SlotRef.ns.index : ℕ → SlotIndex) n) := fun _ => hin
  have hpeers : (Set.range fun n => ((fun _ => near : ℕ → Candidate) n).node.id).Finite :=
    Set.finite_range_const
  obtain ⟨-, -, honce, hlower, hfinite⟩ := r.evenness_descends hw hgrid hpeers
  obtain ⟨w, hv, hrep, -⟩ := (honce t near SlotRef.ns.index hw hfull).1 1 hswaps
  exact ⟨r, t, near, hw, hfull, hswaps, ⟨w, hv, hrep⟩, hlower 0 w.hash hrep, hfinite⟩

end Rule

end Evenness

end CubeRouting
