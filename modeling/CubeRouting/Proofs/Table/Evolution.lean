/-
  How one table changes over time.

  `offer_cases` is all that an offer does, whatever the policy.  `Step` is one
  change of a table: an edit that its entries survive, a removal, or an offer
  that is `allowed`.  `Evolves` is any number of these.

  * `Evolves.wellFormed`: a table stays well-formed;
  * `Evolves.entries`: an entry was there before or was offered;
  * `Evolves.sublist_map`: slots that nothing is offered to only lose entries.
-/
import CubeRouting.Policy
import CubeRouting.Proofs.Table.WellFormed
import Mathlib.Logic.Relation

namespace CubeRouting

/-! ## Policies -/

/-- A policy adds the candidate itself, with metadata of its own. -/
theorem Policy.entry_decide (p : Policy) (o : Offer) :
    ∃ data, (p.decide o).1.entry = { o.entry with metadata := data } := by
  cases p with
  | liveness tunables memory =>
    let score := memory.startingScore tunables o.candidate.node.hash
    have hentry : (o.livenessDecision tunables memory).1.entry = o.entry.setLiveness score := by
      unfold Offer.livenessDecision
      dsimp only
      split
      · rfl
      · split
        · rfl
        · split
          · rfl
          · split <;> rfl
    exact ⟨_, hentry⟩
  | simple => exact ⟨_, rfl⟩
  | distance => exact ⟨_, rfl⟩
  | balanced => exact ⟨_, rfl⟩
  | evenness => exact ⟨_, rfl⟩
  | secure => exact ⟨_, rfl⟩

/-- **A policy takes a member out of a full slot only.** -/
theorem Policy.isFull_of_replace (p : Policy) (o : Offer) {victim position : Nat}
    (h : (p.decide o).1.move = .replace victim position) : o.isFull = true := by
  by_contra hroom
  rw [Bool.not_eq_true] at hroom
  cases p with
  | simple =>
    simp only [decide, Offer.unlessStored, Offer.simpleMove, hroom] at h
    split at h <;> cases h
  | distance =>
    simp only [decide, Offer.unlessStored, Offer.distanceMove, hroom] at h
    split at h <;> cases h
  | balanced partition =>
    simp only [decide, Offer.unlessStored, Offer.balancedMove, hroom] at h
    split at h
    · cases h
    · split at h <;> cases h
  | evenness metric weights =>
    simp only [decide, Offer.unlessStored, Offer.evennessMove, hroom] at h
    split at h <;> cases h
  | liveness tunables memory =>
    simp only [decide, Offer.unlessStored, Offer.livenessDecision, hroom, Bool.not_false,
      if_true] at h
    split at h <;> cases h
  | secure metric interval state =>
    simp only [decide, Offer.secureMove, hroom, Bool.not_false, if_true] at h
    split at h <;> cases h

namespace SubTable

variable {t t' t'' : SubTable} {e e' : Entry} {i : SlotIndex} {candidate : Candidate}

/-- The entry of a candidate in a slot of a table. -/
def entryOf (t : SubTable) (candidate : Candidate) (i : SlotIndex) : Entry :=
  .fresh candidate.node candidate.distance candidate.time ⟨t.kind, i⟩

theorem continues_entryOf (t : SubTable) (candidate : Candidate) (i : SlotIndex)
    (data : Metadata) : ({ t.entryOf candidate i with metadata := data } : Entry).Continues
      (t.entryOf candidate i) := ⟨rfl, rfl, rfl, rfl, rfl, rfl⟩

/-- The offer of a candidate to a slot of a table. -/
def offerOf (t : SubTable) (candidate : Candidate) (i : SlotIndex) : Offer where
  candidate := candidate
  slot := ⟨t.kind, i⟩
  members := t.slot i
  capacity := t.capacity
  stored := t.contains candidate.node.hash

/-- An offer is the policy's decision carried out. -/
theorem offer_eq (t : SubTable) (policy : Policy) (candidate : Candidate) (i : SlotIndex) :
    t.offer policy candidate i =
      ((t.carryOut (policy.decide (t.offerOf candidate i)).1).1,
        (policy.decide (t.offerOf candidate i)).2,
        (t.carryOut (policy.decide (t.offerOf candidate i)).1).2) := rfl

theorem carryOut_replace {member : Entry} {victim position : Nat}
    (hv : (t.slot e.slot.index)[victim]? = some member) (hnew : t.contains e.hash = false) :
    t.carryOut ⟨.replace victim position, e⟩ =
      ((t.remove member.hash).1.insert position e, .replaced member.hash) := by
  simp only [carryOut, hv, hnew, Bool.false_eq_true, if_false]

/-- **What an offer does**: it is declined, the candidate is added to a slot
    with room, or it is added in place of a member of a full slot. -/
theorem offer_cases (t : SubTable) (policy : Policy) (candidate : Candidate) (i : SlotIndex) :
    ((t.offer policy candidate i).1 = t ∧ (t.offer policy candidate i).2.2 = .declined) ∨
    ∃ e data position, e = { t.entryOf candidate i with metadata := data } ∧
      ((t.accepts e = true ∧ (t.offer policy candidate i).1 = t.insert position e ∧
          (t.offer policy candidate i).2.2 = .admitted) ∨
        ∃ member ∈ t.slot i, t.capacity ≤ (t.slot i).length ∧ t.contains e.hash = false ∧
          (t.offer policy candidate i).1 = (t.remove member.hash).1.insert position e ∧
          (t.offer policy candidate i).2.2 = .replaced member.hash) := by
  have hoffer := t.offer_eq policy candidate i
  generalize ho : t.offerOf candidate i = o at hoffer
  obtain ⟨data, hentry⟩ := policy.entry_decide o
  have hentry' : (policy.decide o).1.entry = { t.entryOf candidate i with metadata := data } := by
    rw [hentry, ← ho]
    rfl
  have hfull : ∀ victim position, (policy.decide o).1.move = .replace victim position →
      t.capacity ≤ (t.slot i).length := by
    intro victim position hmove
    have hfull := policy.isFull_of_replace o hmove
    rw [← ho] at hfull
    exact of_decide_eq_true hfull
  rw [hoffer]
  generalize (policy.decide o).1 = d at hentry' hfull
  rw [carryOut]
  cases hmove : d.move with
  | decline => exact Or.inl ⟨rfl, rfl⟩
  | insert position =>
    dsimp only
    split
    · rename_i haccepts
      exact Or.inr ⟨_, data, position, hentry', Or.inl ⟨haccepts, rfl, rfl⟩⟩
    · exact Or.inl ⟨rfl, rfl⟩
  | replace victim position =>
    dsimp only
    split
    · exact Or.inl ⟨rfl, rfl⟩
    · rename_i member hmember
      split
      · exact Or.inl ⟨rfl, rfl⟩
      · rename_i hnew
        refine Or.inr ⟨_, data, position, hentry', Or.inr ⟨member, ?_, hfull _ _ hmove,
          by simpa using hnew, rfl, rfl⟩⟩
        have hmem := List.mem_of_getElem? hmember
        rwa [hentry'] at hmem

theorem sameGrid_insert_remove (t : SubTable) (hash : UInt64) (position : Nat) (e : Entry) :
    ((t.remove hash).1.insert position e).SameGrid t :=
  (sameGrid_insert ..).trans (t.sameGrid_remove hash)

/-- An entry may come in place of a member. -/
theorem WellFormed.insert_remove (hw : t.WellFormed) (hash : UInt64) (position : Nat)
    (hslot : e.slot = ⟨t.kind, i⟩) (hi : t.InGrid i) (hlive : e.discarded = false) :
    ((t.remove hash).1.insert position e).WellFormed := by
  have hg := t.sameGrid_remove hash
  refine (hw.remove hash).insert position ?_ ?_ hlive
  · rw [hslot, hg.kind]
  · rwa [hslot, InGrid, hg.levels, hg.columns]

theorem sameGrid_offer (t : SubTable) (policy : Policy) (candidate : Candidate) (i : SlotIndex) :
    (t.offer policy candidate i).1.SameGrid t := by
  obtain ⟨h, -⟩ | ⟨e, -, position, -, ⟨-, h, -⟩ | ⟨member, -, -, -, h, -⟩⟩ :=
    t.offer_cases policy candidate i
  · rw [h]
    exact SameGrid.refl t
  · rw [h]
    exact t.sameGrid_insert position e
  · rw [h]
    exact t.sameGrid_insert_remove member.hash position e

theorem WellFormed.offer (hw : t.WellFormed) (policy : Policy) (candidate : Candidate)
    (hi : t.InGrid i) : (t.offer policy candidate i).1.WellFormed := by
  obtain ⟨h, -⟩ | ⟨e, data, position, rfl, ⟨-, h, -⟩ | ⟨member, -, -, -, h, -⟩⟩ :=
    t.offer_cases policy candidate i
  · rwa [h]
  · rw [h]
    exact hw.insert position rfl hi rfl
  · rw [h]
    exact hw.insert_remove member.hash position rfl hi rfl

/-- After an offer a table has what it had, and the candidate if it was
    admitted. -/
theorem WellFormed.mem_offer (hw : t.WellFormed) (policy : Policy)
    (h : e' ∈ (t.offer policy candidate i).1.entries) :
    e' ∈ t.entries ∨ (t.offer policy candidate i).2.2.isAdmitted = true ∧
      e'.Continues (t.entryOf candidate i) := by
  obtain ⟨ht, -⟩ | ⟨e, data, position, rfl, ⟨-, ht, ha⟩ | ⟨member, -, -, -, ht, ha⟩⟩ :=
    t.offer_cases policy candidate i
  · rw [ht] at h
    exact Or.inl h
  · rw [ht] at h
    rw [ha]
    rcases mem_entries_insert h with rfl | h
    · exact Or.inr ⟨rfl, t.continues_entryOf candidate i data⟩
    · exact Or.inl h
  · rw [ht] at h
    rw [ha]
    rcases mem_entries_insert h with rfl | h
    · exact Or.inr ⟨rfl, t.continues_entryOf candidate i data⟩
    · obtain ⟨j, hj⟩ := mem_entries.1 h
      exact Or.inl (mem_entries.2 ⟨j, (hw.mem_slot_remove.1 hj).1⟩)

/-- The table has room for an entry in the slot that a member left. -/
theorem WellFormed.accepts_remove (hw : t.WellFormed) {member : Entry}
    (hmem : member ∈ t.slot e.slot.index) (hc : t.contains e.hash = false) :
    (t.remove member.hash).1.accepts e = true := by
  refine accepts_iff.2 ⟨?_, ?_⟩
  · rw [hw.slot_remove, (t.sameGrid_remove member.hash).capacity]
    refine Nat.lt_of_lt_of_le ?_ (hw.length_le e.slot.index)
    rw [List.length_filter_lt_length_iff_exists]
    exact ⟨member, hmem, by simp⟩
  · rw [contains_remove, hc, Bool.and_false]

/-- **A candidate that was admitted is stored.** -/
theorem WellFormed.admitted_offer (hw : t.WellFormed) (policy : Policy)
    (h : (t.offer policy candidate i).2.2.isAdmitted = true) :
    ∃ e ∈ (t.offer policy candidate i).1.entries, e.Continues (t.entryOf candidate i) := by
  obtain ⟨-, hd⟩ | ⟨e, data, position, rfl, ⟨ha, ht, -⟩ | ⟨member, hmem, -, hc, ht, -⟩⟩ :=
    t.offer_cases policy candidate i
  · rw [hd] at h
    cases h
  · refine ⟨_, ?_, t.continues_entryOf candidate i data⟩
    rw [ht]
    exact mem_entries.2 ⟨i, (mem_slot_insert ha).2 (Or.inl ⟨rfl, rfl⟩)⟩
  · refine ⟨_, ?_, t.continues_entryOf candidate i data⟩
    rw [ht]
    exact mem_entries.2 ⟨i, (mem_slot_insert (hw.accepts_remove hmem hc)).2 (Or.inl ⟨rfl, rfl⟩)⟩

/-! ## Evolution -/

/-- One change of a table. -/
inductive Step (allowed : Candidate → SlotIndex → Prop) : SubTable → SubTable → Prop where
  | modify {t : SubTable} {hash : UInt64} {f : Entry → Entry} :
      (∀ e, t.get? hash = some e → (f e).Continues e) → Step allowed t (t.modify hash f)
  | modifyAll {t : SubTable} {f : Entry → Entry} :
      (∀ e, (f e).Continues e) → Step allowed t (t.modifyAll f)
  | remove {t : SubTable} (hash : UInt64) : Step allowed t (t.remove hash).1
  | offer {t : SubTable} {candidate : Candidate} {i : SlotIndex} (policy : Policy) :
      allowed candidate i → Step allowed t (t.offer policy candidate i).1

/-- Any number of changes of a table. -/
def Evolves (allowed : Candidate → SlotIndex → Prop) : SubTable → SubTable → Prop :=
  Relation.ReflTransGen (Step allowed)

variable {allowed : Candidate → SlotIndex → Prop}

theorem Evolves.refl (t : SubTable) : Evolves allowed t t := Relation.ReflTransGen.refl

theorem Evolves.trans (h : Evolves allowed t t') (h' : Evolves allowed t' t'') :
    Evolves allowed t t'' := Relation.ReflTransGen.trans h h'

theorem Step.evolves (h : Step allowed t t') : Evolves allowed t t' := Relation.ReflTransGen.single h

theorem evolves_removeAll (t : SubTable) (hashes : List UInt64) :
    Evolves allowed t (t.removeAll hashes).1 := by
  induction hashes generalizing t with
  | nil => exact Evolves.refl t
  | cons hash hashes ih => exact (Step.remove hash).evolves.trans (ih _)

theorem Step.sameGrid (h : Step allowed t t') : t'.SameGrid t := by
  cases h with
  | modify => unfold SubTable.modify; split <;> exact ⟨rfl, rfl, rfl, rfl⟩
  | modifyAll => exact ⟨rfl, rfl, rfl, rfl⟩
  | remove hash => exact t.sameGrid_remove hash
  | offer policy => exact t.sameGrid_offer policy _ _

theorem Step.wellFormed (hgrid : ∀ candidate i, allowed candidate i → t.InGrid i)
    (h : Step allowed t t') (hw : t.WellFormed) : t'.WellFormed := by
  cases h with
  | modify hf => exact hw.edits (hw.edits_modify hf)
  | modifyAll hf => exact hw.edits (edits_modifyAll hf)
  | remove hash => exact hw.remove hash
  | offer policy hi => exact hw.offer policy _ (hgrid _ _ hi)

theorem Step.entries (h : Step allowed t t') (hw : t.WellFormed) (he' : e' ∈ t'.entries) :
    (∃ e ∈ t.entries, e'.Continues e) ∨
      ∃ candidate i, allowed candidate i ∧ e'.Continues (t.entryOf candidate i) := by
  cases h with
  | modify hf => exact Or.inl ((hw.edits_modify hf).entries_continue he')
  | modifyAll hf => exact Or.inl ((edits_modifyAll hf).entries_continue he')
  | remove hash =>
    obtain ⟨j, hj⟩ := mem_entries.1 he'
    exact Or.inl ⟨e', mem_entries.2 ⟨j, (hw.mem_slot_remove.1 hj).1⟩, Entry.Continues.refl e'⟩
  | offer policy hi =>
    rcases hw.mem_offer policy he' with he' | ⟨-, hnew⟩
    · exact Or.inl ⟨e', he', Entry.Continues.refl e'⟩
    · exact Or.inr ⟨_, _, hi, hnew⟩

theorem Evolves.sameGrid (h : Evolves allowed t t') : t'.SameGrid t := by
  induction h with
  | refl => exact SameGrid.refl t
  | tail _ hstep ih => exact hstep.sameGrid.trans ih

theorem SameGrid.inGrid_iff (h : t'.SameGrid t) : t'.InGrid i ↔ t.InGrid i := by
  rw [InGrid, InGrid, h.levels, h.columns]

section
variable (hgrid : ∀ candidate i, allowed candidate i → t.InGrid i) (hw : t.WellFormed)
include hgrid hw

/-- **A table stays well-formed.** -/
theorem Evolves.wellFormed (h : Evolves allowed t t') : t'.WellFormed := by
  induction h with
  | refl => exact hw
  | tail hrun hstep ih =>
    have hg : SameGrid _ t := Evolves.sameGrid hrun
    exact hstep.wellFormed (fun candidate i hi => hg.inGrid_iff.2 (hgrid candidate i hi)) ih

/-- **Where entries come from**: an entry was there before, or it was offered
    to its slot. -/
theorem Evolves.entries (h : Evolves allowed t t') :
    ∀ e' ∈ t'.entries, (∃ e ∈ t.entries, e'.Continues e) ∨
      ∃ candidate i, allowed candidate i ∧ e'.Continues (t.entryOf candidate i) := by
  induction h with
  | refl => exact fun e' he' => Or.inl ⟨e', he', Entry.Continues.refl e'⟩
  | tail hrun hstep ih =>
    rename_i u u'
    have hu : u.WellFormed := Evolves.wellFormed hgrid hw hrun
    intro e' he'
    rcases hstep.entries hu he' with ⟨e, he, hc⟩ | ⟨candidate, i, hi, hc⟩
    · rcases ih e he with ⟨e₀, he₀, hc₀⟩ | ⟨candidate, i, hi, hc₀⟩
      · exact Or.inl ⟨e₀, he₀, hc.trans hc₀⟩
      · exact Or.inr ⟨candidate, i, hi, hc.trans hc₀⟩
    · refine Or.inr ⟨candidate, i, hi, ?_⟩
      rwa [entryOf, (Evolves.sameGrid hrun).kind] at hc

end

/-- A table that nothing is offered to only has what it had. -/
theorem Evolves.continues (hw : t.WellFormed) (h : Evolves (fun _ _ => False) t t') :
    ∀ e' ∈ t'.entries, ∃ e ∈ t.entries, e'.Continues e := by
  intro e' he'
  rcases Evolves.entries (fun _ _ hno => hno.elim) hw h e' he' with hold | ⟨_, _, hno, -⟩
  · exact hold
  · exact hno.elim

/-- What entries keep as long as they are in their slot is what remains of the
    slots that nothing is offered to. -/
theorem Step.sublist_map {α : Type} {f : Entry → α} (hf : ∀ e e', e'.Continues e → f e' = f e)
    (hw : t.WellFormed) (h : Step (fun _ _ => False) t t') (i : SlotIndex) :
    ((t'.slot i).map f).Sublist ((t.slot i).map f) := by
  have hedits : t'.Edits t → ((t'.slot i).map f).Sublist ((t.slot i).map f) := by
    intro hed
    obtain ⟨g, hg, hslot⟩ := hed.exists_slot_eq
    have hmap : (t.slot i).map (f ∘ g i) = (t.slot i).map f :=
      List.map_congr_left fun e he => hf e (g i e) (hg i e he)
    rw [hslot, List.map_map, hmap]
  cases h with
  | modify hc => exact hedits (hw.edits_modify hc)
  | modifyAll hc => exact hedits (edits_modifyAll hc)
  | remove hash =>
    rw [hw.slot_remove]
    exact List.filter_sublist.map f
  | offer policy hno => exact hno.elim

theorem Evolves.sublist_map {α : Type} {f : Entry → α}
    (hf : ∀ e e', e'.Continues e → f e' = f e) (hw : t.WellFormed)
    (h : Evolves (fun _ _ => False) t t') (i : SlotIndex) :
    ((t'.slot i).map f).Sublist ((t.slot i).map f) := by
  induction h with
  | refl => exact List.Sublist.refl _
  | tail hrun hstep ih =>
    have hu := Evolves.wellFormed (fun _ _ hno => hno.elim) hw hrun
    exact (hstep.sublist_map hf hu i).trans ih

end SubTable

end CubeRouting
