/-
  Offers that are made again.

  A policy that declined a candidate declines it again if nothing else happened,
  at whatever time.  This is so of every policy but the one of the secure
  tables, whose masks change on their own (`Policy.IsSteady`).

  * `IsSteady.decide`: a steady policy stays steady;
  * `SubTable.offer_again`: a candidate that was declined is declined again;
  * `SubTable.receive_again`: so it is if the buckets of the balanced policy come
    in another order.
-/
import CubeRouting.Proofs.Policy.BucketOrder
import CubeRouting.Proofs.Recency.LruCache
import CubeRouting.Proofs.Table.Evolution

namespace CubeRouting

/-- The candidate, seen again at another time. -/
def Candidate.later (c : Candidate) (time : Timestamp) : Candidate := { c with time := time }

/-! ## The liveness policy -/

theorem LruCache.get?_touch {α β : Type} [BEq α] [LawfulBEq α] {c : LruCache α β}
    (hroom : 0 < c.capacity) (key : α) : (c.touch key).get? key = c.get? key := by
  unfold touch
  split
  · rename_i value hvalue
    rw [hvalue]
    exact (HasBehind.put hroom key value ∅).get? (Finset.notMem_empty key)
  · rfl

namespace Offer

/-- The offer, made again at another time. -/
def later (o : Offer) (time : Timestamp) : Offer := { o with candidate := o.candidate.later time }

/-- The move of the liveness policy for a candidate with a score. -/
def livenessMove (o : Offer) (t : LivenessTunables) (own : Binary64) : Move :=
  if !o.isFull then o.unlessStored (.insert o.members.length)
  else
    match firstLeast (o.members.map (·.liveness t)) with
    | none => .decline
    | some (i, score) =>
      match o.members[i]? with
      | none => .decline
      | some _ =>
        if score.le t.threshold && score.lt own && !o.stored then .replace i i else .decline

variable (o : Offer) (t : LivenessTunables) (memory : LivenessMemory)

/-- The scores that the liveness policy remembers matter for the candidate
    only; it looks the candidate up, and stores a score if a member goes. -/
theorem livenessDecision_spec :
    (o.livenessDecision t memory).1.move =
      o.livenessMove t (memory.startingScore t o.candidate.node.hash) ∧
    ((o.livenessDecision t memory).2 = memory.touch o.candidate.node.hash ∨
      ∃ member score i, (o.livenessDecision t memory).1.move = .replace i i ∧
        o.members[i]? = some member ∧ o.stored = false ∧
        (o.livenessDecision t memory).2 =
          (memory.touch o.candidate.node.hash).put member.hash score) := by
  unfold livenessDecision livenessMove
  dsimp only
  split
  · exact ⟨rfl, Or.inl rfl⟩
  obtain hleast | ⟨⟨i, score⟩, hleast⟩ := (firstLeast (o.members.map (·.liveness t))).eq_none_or_eq_some
  · rw [hleast]
    exact ⟨rfl, Or.inl rfl⟩
  rw [hleast]
  dsimp only
  cases hmember : o.members[i]? with
  | none => exact ⟨rfl, Or.inl rfl⟩
  | some member =>
    dsimp only
    split
    · rename_i hreplace
      refine ⟨rfl, Or.inr ⟨member, score, i, rfl, hmember, ?_, rfl⟩⟩
      rw [Bool.and_eq_true, Bool.not_eq_true'] at hreplace
      exact hreplace.2
    · exact ⟨rfl, Or.inl rfl⟩

end Offer

/-! ## Policies -/

namespace Policy

/-- A policy that decides by what it was offered alone, with room for one score
    if it remembers scores. -/
def IsSteady : Policy → Prop
  | liveness _ memory => 0 < memory.capacity
  | secure .. => False
  | simple | distance | balanced _ | evenness .. => True

theorem isSteady_ofNs (c : Config) : (ofNs c).IsSteady := by
  unfold ofNs
  cases c.nsPolicy with
  | liveness => exact Nat.lt_of_lt_of_le Nat.one_pos (Nat.le_max_right c.liveness.memory 1)
  | _ => trivial

variable {p : Policy}

/-- **A steady policy stays steady.** -/
theorem IsSteady.decide (h : p.IsSteady) (o : Offer) : (p.decide o).2.IsSteady := by
  cases p with
  | liveness tunables memory =>
    change 0 < (o.livenessDecision tunables memory).2.capacity
    obtain ⟨-, heq | ⟨member, score, i, -, -, -, heq⟩⟩ := o.livenessDecision_spec tunables memory
    · rw [heq, LruCache.capacity_touch]
      exact h
    · rw [heq]
      change 0 < (memory.touch o.candidate.node.hash).capacity
      rw [LruCache.capacity_touch]
      exact h
  | secure => exact h.elim
  | _ => trivial

/-- **A steady policy makes the same move again**, unless the one that
    remembers scores has taken out a member. -/
theorem IsSteady.move_again (h : p.IsSteady) (o : Offer) (time : Timestamp) :
    ((p.decide o).2.decide (o.later time)).1.move = (p.decide o).1.move ∨
      o.Replaces (p.decide o).1.move := by
  cases p with
  | liveness tunables memory =>
    obtain ⟨hmove, hmemory⟩ := o.livenessDecision_spec tunables memory
    rcases hmemory with heq | ⟨member, score, i, hreplace, hmember, hnew, -⟩
    · left
      change ((o.later time).livenessDecision tunables (o.livenessDecision tunables memory).2).1.move =
        (o.livenessDecision tunables memory).1.move
      obtain ⟨hagain, -⟩ := (o.later time).livenessDecision_spec tunables
        (memory.touch o.candidate.node.hash)
      have hscore : LivenessMemory.startingScore (memory.touch o.candidate.node.hash) tunables
          o.candidate.node.hash = memory.startingScore tunables o.candidate.node.hash := by
        rw [LivenessMemory.startingScore, LivenessMemory.startingScore, LruCache.get?_touch h]
      rw [heq, hagain, hmove, ← hscore]
      rfl
    · exact Or.inr ⟨i, i, member, hreplace, hmember, hnew⟩
  | secure => exact h.elim
  | _ => exact Or.inl rfl

end Policy

/-! ## Tables -/

namespace SubTable

/-- What comes of a decision does not depend on when the entry was made. -/
theorem carryOut_declined {t : SubTable} {d d' : Decision} (hmove : d'.move = d.move)
    (hslot : d'.entry.slot = d.entry.slot) (hhash : d'.entry.hash = d.entry.hash)
    (h : (t.carryOut d).2 = .declined) : t.carryOut d' = (t, .declined) := by
  unfold carryOut accepts at h ⊢
  rw [hmove, hslot, hhash]
  cases hd : d.move with
  | decline => rfl
  | insert position =>
    rw [hd] at h
    dsimp only at h ⊢
    split at h
    · cases h
    · rename_i hno
      rw [if_neg hno]
  | replace victim position =>
    rw [hd] at h
    dsimp only at h ⊢
    split at h
    · rfl
    · split at h
      · rename_i hstored
        rw [if_pos hstored]
      · cases h

variable {t : SubTable} {candidate : Candidate} {i : SlotIndex}

theorem carryOut_ne_declined {d : Decision} (h : (t.offerOf candidate i).Replaces d.move)
    (hslot : d.entry.slot.index = i) (hhash : d.entry.hash = candidate.node.hash) :
    (t.carryOut d).2 ≠ .declined := by
  obtain ⟨victim, position, member, hmove, hmember, hnew⟩ := h
  have hmember' : (t.slot d.entry.slot.index)[victim]? = some member := by
    rw [hslot]
    exact hmember
  have hnew' : t.contains d.entry.hash = false := by
    rw [hhash]
    exact hnew
  have hd : d = ⟨.replace victim position, d.entry⟩ := by rw [← hmove]
  rw [hd, carryOut_replace hmember' hnew']
  nofun

theorem offer_declined {policy : Policy} (h : (t.offer policy candidate i).2.2 = .declined) :
    (t.offer policy candidate i).1 = t := by
  obtain ⟨ht, -⟩ | ⟨e, -, position, -, ⟨-, -, ha⟩ | ⟨member, -, -, -, -, ha⟩⟩ :=
    t.offer_cases policy candidate i
  · exact ht
  · rw [ha] at h
    cases h
  · rw [ha] at h
    cases h

/-- **A candidate that was declined is declined again.** -/
theorem offer_again {policy : Policy} (hp : policy.IsSteady)
    (h : (t.offer policy candidate i).2.2 = .declined) (time : Timestamp) :
    (t.offer (t.offer policy candidate i).2.1 (candidate.later time) i).1 = t ∧
      (t.offer (t.offer policy candidate i).2.1 (candidate.later time) i).2.2 = .declined := by
  generalize ho : t.offerOf candidate i = o
  have hlater : t.offerOf (candidate.later time) i = o.later time := by
    rw [← ho]
    rfl
  have hdeclined : (t.carryOut (policy.decide o).1).2 = .declined := by
    rw [← ho]
    exact h
  obtain ⟨data, hentry⟩ := policy.entry_decide o
  obtain ⟨data', hentry'⟩ := (policy.decide o).2.entry_decide (o.later time)
  have hcarry : t.carryOut ((policy.decide o).2.decide (o.later time)).1 = (t, .declined) := by
    rcases hp.move_again o time with hmove | hreplaces
    · exact carryOut_declined hmove (by rw [hentry, hentry']; rfl) (by rw [hentry, hentry']; rfl)
        hdeclined
    · rw [← ho] at hreplaces hentry hdeclined
      exact absurd hdeclined (carryOut_ne_declined hreplaces (by rw [hentry]; rfl)
        (by rw [hentry]; rfl))
  have hoffer : t.offer (t.offer policy candidate i).2.1 (candidate.later time) i =
      ((t.carryOut ((policy.decide o).2.decide (o.later time)).1).1,
        ((policy.decide o).2.decide (o.later time)).2,
        (t.carryOut ((policy.decide o).2.decide (o.later time)).1).2) := by
    rw [← hlater, ← ho]
    rfl
  rw [hoffer, hcarry]
  exact ⟨rfl, rfl⟩

/-- **Under the balanced policy** it is declined in whatever order the buckets
    come. -/
theorem receive_again {p : Partition} {order : Balanced.BucketOrder}
    (h : (t.receive p i ⟨candidate, order⟩).2 = .declined) (order' : Balanced.BucketOrder)
    (time : Timestamp) : t.receive p i ⟨candidate.later time, order'⟩ = (t, .declined) := by
  let o : Offer := t.offerOf candidate i
  let d : Decision := ⟨o.unlessStored (o.balancedMoveIn p order), o.entry⟩
  have hlater : (o.later time).balancedMoveIn p order' = o.balancedMoveIn p order' := by
    unfold Offer.balancedMoveIn
    rfl
  change (t.carryOut d).2 = .declined at h
  change t.carryOut ⟨(o.later time).unlessStored ((o.later time).balancedMoveIn p order'),
    (o.later time).entry⟩ = (t, .declined)
  rw [hlater]
  rcases o.balancedMoveIn_order p order order' with hmove | hreplaces
  · have hsame : o.unlessStored (o.balancedMoveIn p order') = d.move := hmove
    exact carryOut_declined hsame rfl rfl h
  · exact absurd h (carryOut_ne_declined hreplaces rfl rfl)

end SubTable

end CubeRouting
