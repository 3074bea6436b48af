/-
  What the liveness policy does.

  A peer that is added starts with the score that the policy remembers, or with
  the initial one; in a full slot it takes the place of the member with the
  lowest score, and the policy remembers that score.

  * `Policy.IsLiveness`: a liveness policy with the memory that its tunables
    ask for; every decision keeps it (`Policy.IsLiveness.decide`);
  * `SubTable.WellFormed.liveness_of_offer`: the score of a peer that is added;
  * `Offer.startingScore_livenessDecision`: it stays the same for another offer
    of the peer, if there is room for two scores;
  * `SubTable.offer_liveness`: what the policy makes of an offer to a
    full slot.
-/
import CubeRouting.Proofs.Policy.Distance
import CubeRouting.Proofs.Policy.Repetition

namespace CubeRouting

variable {tunables : LivenessTunables} {memory : LivenessMemory}

/-! ## Scores -/

@[simp] theorem Entry.liveness_setLiveness (e : Entry) (score : Binary64) :
    (e.setLiveness score).liveness tunables = score := by
  rw [Entry.liveness, Entry.data?, Entry.setLiveness, Entry.setData, Metadata.put,
    List.lookup_cons_self]
  rfl

/-- **The score of a peer that is added** is the one that it starts with. -/
theorem Offer.entry_livenessDecision (o : Offer) (t : LivenessTunables) (memory : LivenessMemory) :
    (o.livenessDecision t memory).1.entry =
      o.entry.setLiveness (memory.startingScore t o.candidate.node.hash) := by
  unfold livenessDecision
  dsimp only
  split
  · rfl
  split
  · rfl
  split
  · rfl
  split <;> rfl

namespace SubTable

variable {t : SubTable} {candidate : Candidate} {i : SlotIndex} {e : Entry}

/-- What an offer adds is the entry of the policy's decision. -/
theorem WellFormed.mem_entries_offer (hw : t.WellFormed) (policy : Policy)
    (h : e ∈ (t.offer policy candidate i).1.entries) :
    e ∈ t.entries ∨ e = (policy.decide (t.offerOf candidate i)).1.entry := by
  rw [offer_eq] at h
  generalize (policy.decide (t.offerOf candidate i)).1 = d at h ⊢
  unfold carryOut at h
  cases hmove : d.move with
  | decline =>
    rw [hmove] at h
    exact Or.inl h
  | insert position =>
    rw [hmove] at h
    dsimp only at h
    split at h
    · exact (mem_entries_insert h).symm
    · exact Or.inl h
  | replace victim position =>
    rw [hmove] at h
    dsimp only at h
    split at h
    · exact Or.inl h
    split at h
    · exact Or.inl h
    · rcases mem_entries_insert h with rfl | h
      · exact Or.inr rfl
      · exact Or.inl (hw.mem_remove.1 h).1

theorem WellFormed.liveness_of_offer (hw : t.WellFormed)
    (h : e ∈ (t.offer (.liveness tunables memory) candidate i).1.entries) :
    e ∈ t.entries ∨
      e.liveness tunables = memory.startingScore tunables candidate.node.hash := by
  rcases hw.mem_entries_offer _ h with hold | rfl
  · exact Or.inl hold
  · refine Or.inr ?_
    change ((t.offerOf candidate i).livenessDecision tunables memory).1.entry.liveness tunables = _
    rw [Offer.entry_livenessDecision, Entry.liveness_setLiveness]
    rfl

end SubTable

/-! ## Memories -/

/-- A liveness policy with the memory that its tunables ask for. -/
def Policy.IsLiveness (t : LivenessTunables) (p : Policy) : Prop :=
  ∃ memory, p = .liveness t memory ∧ memory.capacity = max t.memory 1

theorem Offer.capacity_livenessDecision (o : Offer) (t : LivenessTunables)
    (memory : LivenessMemory) : (o.livenessDecision t memory).2.capacity = memory.capacity := by
  obtain ⟨-, heq | ⟨member, score, i, -, -, -, heq⟩⟩ := o.livenessDecision_spec t memory
  · rw [heq, LruCache.capacity_touch]
  · rw [heq]
    exact LruCache.capacity_touch ..

theorem Policy.IsLiveness.decide {p : Policy} (h : p.IsLiveness tunables) (o : Offer) :
    (p.decide o).2.IsLiveness tunables := by
  obtain ⟨memory, rfl, hcapacity⟩ := h
  exact ⟨_, rfl, (o.capacity_livenessDecision tunables memory).trans hcapacity⟩

/-- **The score that a peer starts with stays the same** when it is offered, if
    there is room for two scores. -/
theorem Offer.startingScore_livenessDecision {o : Offer} (hroom : 1 < memory.capacity)
    (hstored : o.stored = false → ∀ m ∈ o.members, m.hash ≠ o.candidate.node.hash) :
    (o.livenessDecision tunables memory).2.startingScore tunables o.candidate.node.hash =
      memory.startingScore tunables o.candidate.node.hash := by
  obtain ⟨-, heq | ⟨member, score, i, -, hmember, hnew, heq⟩⟩ :=
    o.livenessDecision_spec tunables memory
  · rw [heq, LivenessMemory.startingScore, LruCache.get?_touch (Nat.zero_lt_of_lt hroom)]
    rfl
  · have hne := hstored hnew member (List.mem_of_getElem? hmember)
    rw [heq, LivenessMemory.startingScore, LruCache.get?_put_touch hroom hne]
    rfl

/-! ## Full slots -/

/-- **The move of the liveness policy in a full slot**: a candidate may take
    the place of a member of the lowest score, if that is at most the threshold
    and below its own. -/
theorem Offer.livenessDecision_cases (o : Offer) (tunables : LivenessTunables)
    (memory : LivenessMemory) (hfull : o.isFull = true) :
    ((o.livenessDecision tunables memory).1.move = .decline ∧
      (o.livenessDecision tunables memory).2 = memory.touch o.candidate.node.hash) ∨
    ∃ i m, o.members[i]? = some m ∧
      (o.livenessDecision tunables memory).1.move = .replace i i ∧
      (∀ m' ∈ o.members, (m.liveness tunables).line ≤ (m'.liveness tunables).line) ∧
      (m.liveness tunables).le tunables.threshold = true ∧
      (m.liveness tunables).lt (memory.startingScore tunables o.candidate.node.hash) = true ∧
      (o.livenessDecision tunables memory).2 =
        (memory.touch o.candidate.node.hash).put m.hash (m.liveness tunables) := by
  unfold livenessDecision
  dsimp only
  rw [hfull, if_neg (by simp)]
  cases hleast : firstLeast (o.members.map (·.liveness tunables)) with
  | none => exact Or.inl ⟨rfl, rfl⟩
  | some best =>
    obtain ⟨i, score⟩ := best
    obtain ⟨hi, hall⟩ := firstLeast_spec hleast
    obtain ⟨m, hm, rfl⟩ : ∃ m, o.members[i]? = some m ∧ m.liveness tunables = score := by
      simpa using hi
    dsimp only
    rw [hm]
    dsimp only
    split
    · rename_i hreplace
      rw [Bool.and_eq_true, Bool.and_eq_true] at hreplace
      exact Or.inr ⟨i, m, hm, rfl, fun m' hm' => hall _ (List.mem_map_of_mem hm'),
        hreplace.1.1, hreplace.1.2, rfl⟩
    · exact Or.inl ⟨rfl, rfl⟩

namespace SubTable

variable {t : SubTable} {candidate : Candidate} {i : SlotIndex}

/-- **What the liveness policy makes of an offer** to a full slot of a table
    that does not have the candidate. -/
theorem offer_liveness (hnew : t.contains candidate.node.hash = false)
    (hfull : t.capacity ≤ (t.slot i).length) :
    (t.offer (.liveness tunables memory) candidate i =
      (t, .liveness tunables (memory.touch candidate.node.hash), .declined)) ∨
    ∃ m ∈ t.slot i, ∃ position,
      (∀ m' ∈ t.slot i, (m.liveness tunables).line ≤ (m'.liveness tunables).line) ∧
      (m.liveness tunables).le tunables.threshold = true ∧
      (m.liveness tunables).lt (memory.startingScore tunables candidate.node.hash) = true ∧
      t.offer (.liveness tunables memory) candidate i =
        ((t.remove m.hash).1.insert position ((t.entryOf candidate i).setLiveness
            (memory.startingScore tunables candidate.node.hash)),
          .liveness tunables ((memory.touch candidate.node.hash).put m.hash (m.liveness tunables)),
          .replaced m.hash) := by
  generalize ho : t.offerOf candidate i = o
  have hoffer := t.offer_eq (.liveness tunables memory) candidate i
  rw [ho, Policy.decide] at hoffer
  have hentry : (o.livenessDecision tunables memory).1.entry = (t.entryOf candidate i).setLiveness
      (memory.startingScore tunables candidate.node.hash) := by
    rw [Offer.entry_livenessDecision, ← ho]
    rfl
  have hcases := o.livenessDecision_cases tunables memory (by rw [← ho]; exact decide_eq_true hfull)
  rw [hoffer]
  generalize o.livenessDecision tunables memory = r at hentry hcases ⊢
  obtain ⟨⟨move, entry⟩, memory'⟩ := r
  dsimp only at hentry hcases ⊢
  rcases hcases with ⟨rfl, rfl⟩ | ⟨v, m, hm, rfl, hall, hle, hlt, rfl⟩
  · left
    rw [← ho]
    rfl
  · rw [← ho] at hm hall hlt ⊢
    have hcarry : t.carryOut ⟨.replace v v, entry⟩ =
        ((t.remove m.hash).1.insert v entry, .replaced m.hash) := by
      rw [hentry]
      exact carryOut_replace hm hnew
    refine Or.inr ⟨m, List.mem_of_getElem? hm, v, hall, hle, hlt, ?_⟩
    rw [hcarry, hentry]
    rfl

end SubTable

end CubeRouting
