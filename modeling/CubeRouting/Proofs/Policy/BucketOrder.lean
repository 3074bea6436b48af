/-
  What the order of the buckets decides.

  The balanced policy looks for the most distant member of the fullest buckets.
  Several may be equally far, and then the one that comes last has to make room.
  How far it is does not depend on this, and so neither does whether the
  candidate is declined.

  * `Balanced.victimAmong_perm`: the distance of the member that has to make
    room;
  * `Offer.balancedMoveIn_order`: the move;
  * `SubTable.WellFormed.receive_order`: the table.  A member that only another
    order takes out may as well be removed before.
-/
import CubeRouting.Proofs.Policy.Balanced

namespace CubeRouting

/-! ## The largest key -/

/-- Values of one rank are the same. -/
theorem Binary64.eq_of_rank {x y : Binary64} (h : x.rank.toNat = y.rank.toNat) : x = y := by
  have hx := x.magnitude_lt
  have hy := y.magnitude_lt
  have hbits : x.bits.toNat = y.bits.toNat := by
    rw [x.rank_toNat, y.rank_toNat] at h
    rw [x.toNat_bits, y.toNat_bits]
    revert h
    cases x.isNegative <;> cases y.isNegative <;>
      simp only [if_true, if_false, Bool.false_eq_true] <;> omega
  exact congrArg mk (UInt64.toNat_inj.1 hbits)

/-- **No key is larger than the last of the largest.**  Keys win against equal
    ones here, so `champion_spec` does not apply. -/
theorem lastGreatest_spec {keys : List Binary64} {i : Nat} {k : Binary64}
    (h : lastGreatest keys = some (i, k)) :
    k ∈ keys ∧ ∀ key ∈ keys, key.rank.toNat ≤ k.rank.toNat := by
  refine ⟨List.mem_of_getElem? (getElem?_champion h), ?_⟩
  have hwins : ∀ a b : Binary64, (!Scalar.before a b) = true ↔ b.rank.toNat ≤ a.rank.toNat := by
    intro a b
    rw [Bool.not_eq_true', ← Bool.not_eq_true, ← Nat.not_lt]
    exact not_congr (a.before_iff b)
  rw [lastGreatest] at h
  induction keys using List.reverseRecOn generalizing i k with
  | nil => exact nofun
  | append_singleton keys key ih =>
    rw [champion_concat] at h
    intro key' hkey'
    cases hbest : champion (fun key holder => !Scalar.before key holder) keys with
    | none =>
      rw [hbest] at h
      cases h
      rw [champion_eq_none_iff.1 hbest] at hkey'
      rw [List.mem_singleton.1 hkey']
    | some best =>
      obtain ⟨j, holder⟩ := best
      have hholder := ih hbest
      rw [hbest] at h
      dsimp only at h
      rcases List.mem_append.1 hkey' with hold | hlast
      · split at h
        · rename_i hwin
          cases h
          exact (hholder key' hold).trans ((hwins ..).1 hwin)
        · cases h
          exact hholder key' hold
      · rw [List.mem_singleton.1 hlast]
        split at h
        · cases h
          exact le_rfl
        · rename_i hwin
          cases h
          rw [hwins] at hwin
          omega

theorem lastGreatest_perm {keys keys' : List Binary64} (h : keys.Perm keys') :
    (lastGreatest keys).map Prod.snd = (lastGreatest keys').map Prod.snd := by
  cases hbest : lastGreatest keys with
  | none =>
    obtain rfl : keys = [] := champion_eq_none_iff.1 hbest
    rw [List.nil_perm.1 h]
    rfl
  | some best =>
    cases hbest' : lastGreatest keys' with
    | none =>
      obtain rfl : keys' = [] := champion_eq_none_iff.1 hbest'
      rw [List.perm_nil.1 h] at hbest
      cases hbest
    | some best' =>
      obtain ⟨hmem, hall⟩ := lastGreatest_spec hbest
      obtain ⟨hmem', hall'⟩ := lastGreatest_spec hbest'
      have hrank : best.2.rank.toNat = best'.2.rank.toNat :=
        Nat.le_antisymm (hall' best.2 (h.mem_iff.1 hmem)) (hall best'.2 (h.mem_iff.2 hmem'))
      exact congrArg some (Binary64.eq_of_rank hrank)

/-! ## The member that has to make room -/

/-- What a candidate is compared with: a distance, and whether it has to be
    closer. -/
def Victim.bar (v : Victim) : Binary64 × Bool := (v.distance, v.mustImprove)

namespace Balanced

theorem worstOfFullest_eq (all : List Bucket) (most : Nat) :
    (worstOfFullest all most).map Prod.snd =
      (lastGreatest ((all.filter (·.count == most)).map (·.distance))).map Prod.snd := by
  unfold worstOfFullest
  dsimp only
  split
  · rename_i hbest
    rw [hbest]
  · rename_i k d hbest
    have hd := getElem?_champion hbest
    rw [List.getElem?_map] at hd
    obtain ⟨bucket, hk, hd⟩ := Option.map_eq_some_iff.1 hd
    rw [hbest, hk]
    rfl

/-- **The order of the buckets decides which member has to make room**, but not
    how far it is. -/
theorem victimAmong_perm {all all' : List Bucket} (h : all.Perm all') (own : Option Bucket) :
    (victimAmong all own).map Victim.bar = (victimAmong all' own).map Victim.bar := by
  have hmost : (all.map (·.count)).foldl max 0 = (all'.map (·.count)).foldl max 0 :=
    (h.map (·.count)).foldl_eq 0
  have hworst : ∀ most, (worstOfFullest all most).map Prod.snd =
      (worstOfFullest all' most).map Prod.snd := by
    intro most
    rw [worstOfFullest_eq, worstOfFullest_eq]
    exact lastGreatest_perm ((h.filter _).map _)
  have hdistant : ∀ most mustImprove,
      ((worstOfFullest all most).map fun x => (⟨x.1, x.2, mustImprove⟩ : Victim)).map Victim.bar =
        ((worstOfFullest all' most).map fun x => (⟨x.1, x.2, mustImprove⟩ : Victim)).map
          Victim.bar := by
    intro most mustImprove
    have hbar := congrArg (Option.map fun d : Binary64 => (d, mustImprove)) (hworst most)
    rw [Option.map_map, Option.map_map] at hbar ⊢
    exact hbar
  unfold victimAmong
  rw [hmost]
  cases own with
  | none => exact hdistant ..
  | some bucket =>
    dsimp only
    split
    · rfl
    · exact hdistant ..

end Balanced

/-! ## Moves -/

open CubeRouting.Balanced

namespace Offer

variable (o : Offer)

/-- The move puts the candidate in place of a member. -/
def Replaces (m : Move) : Prop :=
  ∃ victim position member, m = .replace victim position ∧ o.members[victim]? = some member ∧
    o.stored = false

/-- **The order of the buckets does not decide whether a candidate is declined.** -/
theorem balancedMoveIn_order (p : Partition) (order order' : BucketOrder) :
    o.unlessStored (o.balancedMoveIn p order') = o.unlessStored (o.balancedMoveIn p order) ∨
      o.Replaces (o.unlessStored (o.balancedMoveIn p order)) := by
  cases hstored : o.stored with
  | true =>
    rw [unlessStored, unlessStored, if_pos hstored, if_pos hstored]
    exact Or.inl rfl
  | false =>
    rw [unlessStored_of_new hstored, unlessStored_of_new hstored]
    unfold balancedMoveIn
    cases p.bucket o.candidate.self o.candidate.node.id with
    | error fault => exact Or.inl rfl
    | ok own =>
      dsimp only
      split
      · exact Or.inl rfl
      have hbar : (order.victim? p o.candidate.self o.members own).map Victim.bar =
          (order'.victim? p o.candidate.self o.members own).map Victim.bar :=
        victimAmong_perm ((order.perm _).trans (order'.perm _).symm) _
      cases hv : order.victim? p o.candidate.self o.members own with
      | none =>
        rw [hv] at hbar
        rw [Option.map_eq_none_iff.1 hbar.symm]
        exact Or.inl rfl
      | some v =>
        rw [hv] at hbar
        obtain ⟨v', hv', hbar⟩ := Option.map_eq_some_iff.1 hbar.symm
        obtain ⟨hdistance, himprove⟩ := Prod.mk.inj hbar
        rw [hv']
        dsimp only [balancedSwap]
        rw [hdistance, himprove]
        split
        · exact Or.inl rfl
        · obtain ⟨member, -, hmember, -⟩ := order.victim?_spec hv
          exact Or.inr ⟨_, _, member, rfl, hmember, hstored⟩

variable {o} {p : Partition}

/-- **A candidate that takes the place of a member** gets the position that a
    slot without that member would have given it. -/
theorem balancedMoveIn_eq_replace {order : BucketOrder} {victim position : Nat}
    (h : o.balancedMoveIn p order = .replace victim position) :
    (∃ own, p.bucket o.candidate.self o.candidate.node.id = .ok own) ∧
      position = sortedPosition (o.members.eraseIdx victim) o.candidate.distance := by
  unfold balancedMoveIn at h
  cases hb : p.bucket o.candidate.self o.candidate.node.id with
  | error fault =>
    rw [hb] at h
    cases h
  | ok own =>
    rw [hb] at h
    dsimp only at h
    split at h
    · cases h
    cases hv : order.victim? p o.candidate.self o.members own with
    | none =>
      rw [hv] at h
      cases h
    | some v =>
      rw [hv] at h
      dsimp only [balancedSwap] at h
      split at h
      · cases h
      · cases h
        exact ⟨⟨own, rfl⟩, rfl⟩

/-- A slot with room takes a candidate that has a bucket. -/
theorem balancedMoveIn_of_room (order : BucketOrder) (hfull : o.isFull = false) {own : Nat}
    (hb : p.bucket o.candidate.self o.candidate.node.id = .ok own) :
    o.balancedMoveIn p order = .insert (sortedPosition o.members o.candidate.distance) := by
  simp only [balancedMoveIn, hb, hfull, Bool.not_false, if_true]

end Offer

/-! ## Arrivals -/

namespace SubTable

variable {t : SubTable} {i : SlotIndex}

/-- **What the order of the buckets decides.**  In another order the same comes
    of an arrival, or another member makes room.  Without that member there is
    room, and then any order leaves the same table. -/
theorem WellFormed.receive_order (hw : t.WellFormed) (p : Partition) (candidate : Candidate)
    (order order' : BucketOrder) :
    t.receive p i ⟨candidate, order'⟩ = t.receive p i ⟨candidate, order⟩ ∨
      ∃ w ∈ t.slot i, t.contains candidate.node.hash = false ∧
        (t.receive p i ⟨candidate, order⟩).2 = .replaced w.hash ∧
        (t.remove w.hash).1.receive p i ⟨candidate, order'⟩ =
          ((t.receive p i ⟨candidate, order⟩).1, .admitted) := by
  let o : Offer := t.offerOf candidate i
  have hreceive : ∀ order, t.receive p i ⟨candidate, order⟩ =
      t.carryOut ⟨o.unlessStored (o.balancedMoveIn p order), o.entry⟩ := fun _ => rfl
  rcases o.balancedMoveIn_order p order order' with
    hmove | ⟨victim, position, w, hmove, hvictim, hnew⟩
  · left
    rw [hreceive, hreceive, hmove]
  right
  have hmem : w ∈ t.slot i := List.mem_of_getElem? hvictim
  have hstored : t.contains o.entry.hash = false := hnew
  have haccepts : (t.remove w.hash).1.accepts o.entry = true := hw.accepts_remove hmem hstored
  have hafter : t.receive p i ⟨candidate, order⟩ =
      ((t.remove w.hash).1.insert position o.entry, .replaced w.hash) := by
    have hslot : (t.slot o.entry.slot.index)[victim]? = some w := hvictim
    rw [hreceive, hmove, carryOut_replace hslot hstored]
  rw [Offer.unlessStored_of_new hnew] at hmove
  obtain ⟨⟨own, hb⟩, hposition⟩ := Offer.balancedMoveIn_eq_replace hmove
  -- the offer to the table without `w`
  let o' : Offer := (t.remove w.hash).1.offerOf candidate i
  have hentry : o'.entry = o.entry := by
    change Entry.fresh _ _ _ ⟨(t.remove w.hash).1.kind, i⟩ = _
    rw [(t.sameGrid_remove w.hash).kind]
    rfl
  have hmove' : o'.unlessStored (o'.balancedMoveIn p order') = .insert position := by
    obtain ⟨hroom, hother⟩ := accepts_iff.1 haccepts
    have hnew' : o'.stored = false := hother
    have hfull : o'.isFull = false := decide_eq_false (Nat.not_le.2 hroom)
    have hmembers : o'.members = o.members.eraseIdx victim := hw.slot_remove_eq_eraseIdx hvictim
    rw [Offer.unlessStored_of_new hnew', Offer.balancedMoveIn_of_room order' hfull hb, hmembers,
      hposition]
    rfl
  have hagain : (t.remove w.hash).1.receive p i ⟨candidate, order'⟩ =
      ((t.remove w.hash).1.insert position o.entry, .admitted) := by
    change (t.remove w.hash).1.carryOut
      ⟨o'.unlessStored (o'.balancedMoveIn p order'), o'.entry⟩ = _
    rw [hmove', hentry, carryOut]
    exact if_pos haccepts
  exact ⟨w, hmem, hnew, by rw [hafter], by rw [hagain, hafter]⟩

end SubTable

end CubeRouting
