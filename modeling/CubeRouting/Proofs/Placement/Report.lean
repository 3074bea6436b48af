/-
  What a report says of the tables.

  A placement names a slot and what came of the offer.  `Placement.Tells` reads
  this as a change of the slots of a table: the candidate joined a slot with
  room, it took the place of a member of a full slot, or nothing changed.

  * `Placed.tells`: this is the change that was made;
  * `Placed.contains_iff`: the peers that the table has afterwards;
  * `Placed.evicted_iff`, `Placed.admitted_iff`: the peer that left the table
    and the one that came.
-/
import CubeRouting.Proofs.Placement.Notify
import CubeRouting.Proofs.Table.Scan

namespace CubeRouting

variable {t t' : SubTable} {candidate : Candidate} {p : Placement} {hash : UInt64}

/-! ## Slots -/

/-- An entry stands at some position of slot `i`, whose other members are as
    given and in that order, and all other slots are as given. -/
structure SubTable.Joined (slots : SlotIndex → List Entry) (i : SlotIndex) (others : List Entry)
    (e : Entry) (t' : SubTable) : Prop where
  slot_eq : ∃ position ≤ others.length, t'.slot i = others.insertIdx position e
  slot_ne : ∀ j, j ≠ i → t'.slot j = slots j

/-- What a placement says of a table: from its capacity, its slots before and
    the entry that the candidate makes in each slot, what its slots are now.
    The entry may come with metadata. -/
def Placement.Tells (capacity : Nat) (slots : SlotIndex → List Entry) (entry : SlotIndex → Entry)
    (t' : SubTable) : Placement → Prop
  | considered i .admitted =>
    (slots i).length < capacity ∧
      ∃ data, SubTable.Joined slots i (slots i) { entry i with metadata := data } t'
  | considered i (.replaced evicted) =>
    (slots i).length = capacity ∧ evicted ∈ (slots i).map (·.hash) ∧
      ∃ data, SubTable.Joined slots i ((slots i).eraseP (·.hash == evicted))
        { entry i with metadata := data } t'
  | _ => ∀ j, t'.slot j = slots j

theorem SubTable.Joined.mem_slot {slots : SlotIndex → List Entry} {i j : SlotIndex}
    {others : List Entry} {e e' : Entry} (h : SubTable.Joined slots i others e t')
    (hsub : ∀ x ∈ others, x ∈ slots i) (he' : e' ∈ t'.slot j) : j = i ∧ e' = e ∨ e' ∈ slots j := by
  by_cases hj : j = i
  · subst hj
    obtain ⟨position, hle, hslot⟩ := h.slot_eq
    rw [hslot, List.mem_insertIdx hle] at he'
    exact he'.imp (fun he => ⟨rfl, he⟩) (hsub e')
  · rw [h.slot_ne j hj] at he'
    exact Or.inr he'

/-- The members of a slot after a placement were there before, or the candidate
    joined them. -/
theorem Placement.Tells.mem_slot {capacity : Nat} {slots : SlotIndex → List Entry}
    {entry : SlotIndex → Entry} {j : SlotIndex} {e' : Entry}
    (h : p.Tells capacity slots entry t') (he' : e' ∈ t'.slot j) :
    e' ∈ slots j ∨ ∃ data, e' = { entry j with metadata := data } := by
  have hsame : (∀ i, t'.slot i = slots i) → e' ∈ slots j := by
    intro hslots
    rwa [hslots] at he'
  cases p with
  | considered i a =>
    cases a with
    | admitted =>
      obtain ⟨-, data, hjoin⟩ := h
      rcases hjoin.mem_slot (fun _ hx => hx) he' with ⟨rfl, he⟩ | hold
      · exact Or.inr ⟨data, he⟩
      · exact Or.inl hold
    | replaced evicted =>
      obtain ⟨-, -, data, hjoin⟩ := h
      rcases hjoin.mem_slot (fun _ hx => List.mem_of_mem_eraseP hx) he' with ⟨rfl, he⟩ | hold
      · exact Or.inr ⟨data, he⟩
      · exact Or.inl hold
    | declined => exact Or.inl (hsame h)
  | _ => exact Or.inl (hsame h)

theorem SubTable.joined_insert {e : Entry} (ha : t.accepts e = true) (position : Nat) :
    SubTable.Joined t.slot e.slot.index (t.slot e.slot.index) e (t.insert position e) where
  slot_eq := ⟨_, Nat.min_le_right _ _, by rw [slot_insert ha, if_pos rfl]⟩
  slot_ne j hj := by rw [slot_insert ha, if_neg fun h => hj h.symm]

/-- **A placement tells the change of its table.** -/
theorem Placed.tells (h : Placed t candidate p t') (hw : t.WellFormed) :
    p.Tells t.capacity t.slot (t.entryOf candidate) t' := by
  cases h with
  | disabled => exact fun _ => rfl
  | stored => exact fun _ => rfl
  | barred hbar => rcases hbar with rfl | rfl <;> exact fun _ => rfl
  | offered policy i =>
    obtain ⟨ht, ha⟩ | ⟨e, data, position, rfl,
      ⟨haccepts, ht, ha⟩ | ⟨member, hmem, hfull, hnew, ht, ha⟩⟩ := t.offer_cases policy candidate i
    · rw [ht, ha]
      exact fun _ => rfl
    · rw [ht, ha]
      exact ⟨(SubTable.accepts_iff.1 haccepts).1, data, SubTable.joined_insert haccepts position⟩
    · rw [ht, ha]
      have haccepts := hw.accepts_remove hmem hnew
      have hjoin := SubTable.joined_insert haccepts position
      refine ⟨Nat.le_antisymm (hw.length_le i) hfull, List.mem_map_of_mem hmem, data, ?_, ?_⟩
      · rw [SubTable.eraseP_hash_eq_filter (hw.nodup i), ← hw.slot_remove]
        exact hjoin.slot_eq
      · intro j hj
        rw [hjoin.slot_ne j hj, hw.slot_remove, List.filter_eq_self]
        -- the member that left was in the slot of the candidate
        intro e he
        rw [bne_iff_ne]
        exact fun hh => hj (hw.slot_unique he hmem hh)

/-! ## Peers -/

namespace Placed

/-- **The peers that a table has after a placement**: those that it had, without
    the one that had to go, and the candidate if it was admitted. -/
theorem contains_iff (h : Placed t candidate p t') (hw : t.WellFormed) :
    t'.contains hash = true ↔ p.isAdmitted = true ∧ hash = candidate.node.hash ∨
      t.contains hash = true ∧ p.evicted? ≠ some hash := by
  have hsame : ∀ {q : Placement}, q.isAdmitted = false → q.evicted? = none →
      (t.contains hash = true ↔ q.isAdmitted = true ∧ hash = candidate.node.hash ∨
        t.contains hash = true ∧ q.evicted? ≠ some hash) := by
    intro q ha hq
    rw [ha, hq]
    simp
  cases h with
  | disabled => exact hsame rfl rfl
  | stored => exact hsame rfl rfl
  | barred hbar => rcases hbar with rfl | rfl <;> exact hsame rfl rfl
  | offered policy i =>
    obtain ⟨ht, ha⟩ | ⟨e, data, position, rfl,
      ⟨haccepts, ht, ha⟩ | ⟨member, hmem, -, hnew, ht, ha⟩⟩ := t.offer_cases policy candidate i
    · rw [ht, ha]
      exact hsame rfl rfl
    · rw [ht, ha, SubTable.contains_insert haccepts, Bool.or_eq_true, beq_iff_eq]
      refine or_congr ⟨fun hh => ⟨rfl, hh.symm⟩, fun hh => hh.2.symm⟩ ?_
      exact ⟨fun hc => ⟨hc, fun hno => by cases hno⟩, fun hc => hc.1⟩
    · rw [ht, ha, SubTable.contains_insert (hw.accepts_remove hmem hnew), SubTable.contains_remove,
        Bool.or_eq_true, beq_iff_eq, Bool.and_eq_true, bne_iff_ne]
      refine or_congr ⟨fun hh => ⟨rfl, hh.symm⟩, fun hh => hh.2.symm⟩ ?_
      exact ⟨fun hc => ⟨hc.2, fun hh => hc.1 (Option.some.inj hh)⟩,
        fun hc => ⟨fun hh => hc.2 (congrArg some hh), hc.1⟩⟩

/-- A peer that was admitted is new to the table. -/
theorem contains_of_isAdmitted (h : Placed t candidate p t') (ha : p.isAdmitted = true) :
    t.contains candidate.node.hash = false := by
  cases h with
  | offered policy i hnew => exact hnew
  | barred hbar => rcases hbar with rfl | rfl <;> cases ha
  | _ => cases ha

/-- The peer that had to go was in the table. -/
theorem contains_of_evicted (h : Placed t candidate p t') (hw : t.WellFormed)
    (he : p.evicted? = some hash) : t.contains hash = true ∧ hash ≠ candidate.node.hash := by
  cases h with
  | offered policy i hnew =>
    obtain ⟨-, ha⟩ | ⟨e, data, position, -, ⟨-, -, ha⟩ | ⟨member, hmem, -, -, -, ha⟩⟩ :=
      t.offer_cases policy candidate i
    · rw [ha] at he
      cases he
    · rw [ha] at he
      cases he
    · rw [ha] at he
      cases he
      have hstored : t.contains member.hash = true :=
        hw.contains_iff.2 ⟨member, SubTable.mem_entries.2 ⟨i, hmem⟩, rfl⟩
      refine ⟨hstored, fun hh => ?_⟩
      rw [hh, hnew] at hstored
      cases hstored
  | barred hbar => rcases hbar with rfl | rfl <;> cases he
  | _ => cases he

/-- **The table has the peer afterwards if the placement says so.** -/
theorem contains_eq_holdsPeer (h : Placed t candidate p t') (hw : t.WellFormed)
    (hoff : p = .disabled → t.contains candidate.node.hash = false) :
    t'.contains candidate.node.hash = p.holdsPeer := by
  cases h with
  | disabled => exact hoff rfl
  | stored hstored => exact hstored
  | barred hbar hnew => rcases hbar with rfl | rfl <;> exact hnew
  | offered policy i hnew =>
    rw [Bool.eq_iff_iff, (Placed.offered policy i hnew).contains_iff hw, hnew]
    simp [Placement.holdsPeer]

end Placed

/-! ## Losses and gains -/

namespace Placed

/-- **What a table loses** is the peer that had to go. -/
theorem evicted_iff (h : Placed t candidate p t') (hw : t.WellFormed) :
    p.evicted? = some hash ↔ t.contains hash = true ∧ t'.contains hash = false := by
  rw [← Bool.not_eq_true, h.contains_iff hw]
  constructor
  · intro he
    obtain ⟨hc, hne⟩ := h.contains_of_evicted hw he
    exact ⟨hc, by simp [he, hne]⟩
  · rintro ⟨hc, hno⟩
    by_contra hne
    exact hno (Or.inr ⟨hc, hne⟩)

/-- **What a table gains** is the candidate, if it was admitted. -/
theorem admitted_iff (h : Placed t candidate p t') (hw : t.WellFormed) :
    p.isAdmitted = true ∧ hash = candidate.node.hash ↔
      t'.contains hash = true ∧ t.contains hash = false := by
  rw [h.contains_iff hw]
  constructor
  · rintro ⟨ha, rfl⟩
    exact ⟨Or.inl ⟨ha, rfl⟩, h.contains_of_isAdmitted ha⟩
  · rintro ⟨hnow | ⟨hc, -⟩, hno⟩
    · exact hnow
    · rw [hc] at hno
      cases hno

end Placed

/-- The peers of a table that another table does not have. -/
def SubTable.missingFrom (t t' : SubTable) : List UInt64 :=
  (t.entries.map (·.hash)).filter fun hash => !t'.contains hash

theorem SubTable.WellFormed.mem_missingFrom (hw : t.WellFormed) :
    hash ∈ t.missingFrom t' ↔ t.contains hash = true ∧ t'.contains hash = false := by
  rw [missingFrom, List.mem_filter, hw.contains_iff, List.mem_map, Bool.not_eq_true']

/-- At most one peer is missing. -/
theorem SubTable.WellFormed.missingFrom_eq (hw : t.WellFormed) {o : Option UInt64}
    (h : ∀ hash, o = some hash ↔ t.contains hash = true ∧ t'.contains hash = false) :
    t.missingFrom t' = o.toList := by
  have hn : (t.missingFrom t').Nodup := by
    refine List.Nodup.filter _ ?_
    rw [hw.entries_eq_scan]
    exact hw.nodup_scan
  cases o with
  | none =>
    refine List.eq_nil_iff_forall_not_mem.2 fun hash hm => ?_
    cases (h hash).2 (hw.mem_missingFrom.1 hm)
  | some hash =>
    refine List.perm_singleton.1 ((List.perm_ext_iff_of_nodup hn (List.nodup_singleton hash)).2 ?_)
    intro other
    rw [hw.mem_missingFrom, ← h, List.mem_singleton, Option.some.injEq, eq_comm]

end CubeRouting
