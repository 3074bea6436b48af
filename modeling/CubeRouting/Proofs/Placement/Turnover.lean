/-
  Members that had to go stay away.

  In a full slot the liveness policy takes out a member of the lowest score
  only, and remembers that score.  No later member is below it, so the peer
  that had to go cannot take the place of a member again.

  * `LivenessMemory.Guards`: what the memory knows of the peers that had to go,
    while it has room for all of them;
  * `Turnover`: what may become of the scores in a slot;
  * `SubTable.WellFormed.guards_offer`: an offer to a full slot is a turnover,
    and the memory guards the slot afterwards.
-/
import CubeRouting.Proofs.Placement.Report
import CubeRouting.Proofs.Policy.Liveness
import CubeRouting.Proofs.Recency.LruCache

namespace CubeRouting

/-- The peers among some entries with their liveness scores. -/
def LivenessTunables.scores (t : LivenessTunables) (members : List Entry) :
    List (UInt64 × Binary64) := members.map fun e => (e.hash, e.liveness t)

/-! ## Memories that guard a slot -/

namespace LivenessMemory

/-- The memory guards the members of a slot against the peers that had to go:
    it remembers these, and no others, with scores that no member is below.
    At most the peers of `bound` were used after any of them. -/
structure Guards (memory : LivenessMemory) (bound gone : Finset UInt64)
    (scores : List (UInt64 × Binary64)) : Prop where
  known : ∀ p ∈ memory.items, p.1 ∈ gone
  remembered : ∀ hash ∈ gone, ∃ score, memory.HasBehind hash score (bound.erase hash) ∧
    ∀ p ∈ scores, score.line ≤ p.2.line
  away : ∀ p ∈ scores, p.1 ∉ gone
  numbers : ∀ p ∈ scores, p.2.isNaN = false

variable {memory : LivenessMemory} {bound gone : Finset UInt64} {scores : List (UInt64 × Binary64)}
  {hash : UInt64}

/-- A memory without scores. -/
theorem guards_of_items (hitems : memory.items = [])
    (hnumbers : ∀ p ∈ scores, p.2.isNaN = false) : memory.Guards bound ∅ scores where
  known p hp := by
    rw [hitems] at hp
    cases hp
  remembered := nofun
  away _ _ := Finset.notMem_empty _
  numbers := hnumbers

namespace Guards

variable (h : memory.Guards bound gone scores)
include h

theorem get?_eq_none (hnew : hash ∉ gone) : memory.get? hash = none := by
  refine List.lookup_eq_none_iff.2 fun p hp => bne_iff_ne.2 ?_
  rintro rfl
  exact hnew (h.known p hp)

/-- A peer that had to go would not start above any member. -/
theorem startingScore_le (t : LivenessTunables) (hgone : hash ∈ gone) :
    ∀ p ∈ scores, (memory.startingScore t hash).line ≤ p.2.line := by
  obtain ⟨score, hbehind, hle⟩ := h.remembered hash hgone
  rwa [startingScore, hbehind.get? (Finset.notMem_erase hash bound)]

section
variable (hsub : gone ⊆ bound) (hroom : bound.card ≤ memory.capacity)
include hsub hroom

omit h in
theorem card_erase_lt (hgone : hash ∈ gone) : (bound.erase hash).card < memory.capacity :=
  (Finset.card_erase_lt_of_mem (hsub hgone)).trans_le hroom

/-- **Looking a peer up** keeps the guard. -/
theorem touch (hash : UInt64) : Guards (memory.touch hash) bound gone scores := by
  by_cases hgone : hash ∈ gone
  · refine ⟨fun p hp => ?_, fun k hk => ?_, h.away, h.numbers⟩
    · unfold LruCache.touch at hp
      split at hp
      · rcases LruCache.mem_items_put hp with rfl | ⟨hp, -⟩
        · exact hgone
        · exact h.known p hp
      · exact h.known p hp
    · obtain ⟨score, hbehind, hle⟩ := h.remembered k hk
      have hlt := card_erase_lt hsub hroom hk
      refine ⟨score, ?_, hle⟩
      by_cases hne : hash = k
      · subst hne
        exact hbehind.touch (Finset.notMem_erase hash bound) (Nat.zero_lt_of_lt hlt)
      · exact hbehind.touch_other hne (Finset.mem_erase.2 ⟨hne, hsub hgone⟩) hlt
  · rw [LruCache.touch, h.get?_eq_none hgone]
    exact h

/-- **A member of the lowest score goes** and is remembered, and members that
    are not below it come. -/
theorem put {score : Binary64} {scores' : List (UInt64 × Binary64)} (hbound : hash ∈ bound)
    (hnew : hash ∉ gone) (hleast : ∀ p ∈ scores, score.line ≤ p.2.line)
    (hcome : ∀ p ∈ scores', p.1 ≠ hash ∧
      (p ∈ scores ∨ p.1 ∉ gone ∧ score.line ≤ p.2.line ∧ p.2.isNaN = false))
    (hmember : (hash, score) ∈ scores) :
    Guards (memory.put hash score) bound (insert hash gone) scores' := by
  have hfloor : ∀ x : Binary64, (∀ p ∈ scores, x.line ≤ p.2.line) →
      ∀ p ∈ scores', x.line ≤ p.2.line := by
    intro x hx p hp
    rcases (hcome p hp).2 with hold | ⟨-, hle, -⟩
    · exact hx p hold
    · exact (hx _ hmember).trans hle
  constructor
  case known =>
    intro p hp
    rcases LruCache.mem_items_put hp with rfl | ⟨hp, -⟩
    · exact Finset.mem_insert_self hash gone
    · exact Finset.mem_insert_of_mem (h.known p hp)
  case remembered =>
    intro k hk
    rcases Finset.mem_insert.1 hk with rfl | hk
    · have hpos : 0 < memory.capacity := (Finset.card_pos.2 ⟨k, hbound⟩).trans_le hroom
      exact ⟨score, LruCache.HasBehind.put hpos k score _, hfloor score hleast⟩
    · obtain ⟨x, hbehind, hle⟩ := h.remembered k hk
      have hne : hash ≠ k := fun heq => hnew (heq ▸ hk)
      exact ⟨x, hbehind.put_other hne (Finset.mem_erase.2 ⟨hne, hbound⟩)
        (card_erase_lt hsub hroom hk) score, hfloor x hle⟩
  case away =>
    intro p hp hmem
    obtain ⟨hne, hp⟩ := hcome p hp
    have hgone := (Finset.mem_insert.1 hmem).resolve_left hne
    rcases hp with hold | ⟨hnew, -⟩
    · exact h.away p hold hgone
    · exact hnew hgone
  case numbers =>
    intro p hp
    rcases (hcome p hp).2 with hold | ⟨-, -, hnumber⟩
    · exact h.numbers p hold
    · exact hnumber

end

end Guards

end LivenessMemory

/-! ## Turnovers -/

/-- What may become of the scores of the members of a slot. -/
structure Turnover (threshold : Binary64) (scores scores' : List (UInt64 × Binary64)) : Prop where
  /-- The lowest score does not fall. -/
  rises : ∃ p ∈ scores, (∀ q ∈ scores, p.2.le q.2 = true) ∧ ∀ q ∈ scores', p.2.le q.2 = true
  /-- Only members of the lowest score go, if that is at most the threshold. -/
  evicts : ∀ p ∈ scores, p.1 ∉ scores'.map Prod.fst →
    (∀ q ∈ scores, p.2.le q.2 = true) ∧ p.2.le threshold = true

variable {threshold : Binary64} {scores scores' : List (UInt64 × Binary64)}

theorem Turnover.refl (hpos : 0 < scores.length) (hnumbers : ∀ p ∈ scores, p.2.isNaN = false) :
    Turnover threshold scores scores := by
  obtain ⟨p, hp, hleast⟩ := scores.toFinset.exists_min_image (fun p => p.2.line)
    (List.toFinset_nonempty_iff scores |>.2 (List.ne_nil_of_length_pos hpos))
  rw [List.mem_toFinset] at hp
  have hle : ∀ q ∈ scores, p.2.le q.2 = true := fun q hq =>
    (Binary64.le_iff_line (hnumbers p hp) (hnumbers q hq)).2 (hleast q (List.mem_toFinset.2 hq))
  exact ⟨⟨p, hp, hle, hle⟩, fun q hq hgone => absurd (List.mem_map_of_mem hq) hgone⟩

/-! ## Offers to a full slot -/

theorem Binary64.isNaN_of_lt {x y : Binary64} (h : x.lt y = true) :
    x.isNaN = false ∧ y.isNaN = false := by
  simp only [Binary64.lt, Bool.and_eq_true, Bool.not_eq_true'] at h
  exact ⟨h.1.1.1, h.1.1.2⟩

namespace SubTable

variable {t : SubTable}

section
variable (hw : t.WellFormed) {m e : Entry} (hm : m ∈ t.slot e.slot.index)
  (hnew : t.contains e.hash = false) (position : Nat)
include hw hm hnew

theorem WellFormed.mem_slot_replace {x : Entry} :
    x ∈ ((t.remove m.hash).1.insert position e).slot e.slot.index ↔
      x = e ∨ x ∈ t.slot e.slot.index ∧ x.hash ≠ m.hash := by
  rw [mem_slot_insert (hw.accepts_remove hm hnew), hw.mem_slot_remove, and_iff_left rfl]

theorem WellFormed.length_slot_replace :
    (((t.remove m.hash).1.insert position e).slot e.slot.index).length =
      (t.slot e.slot.index).length := by
  have hpos : 0 < (t.slot e.slot.index).length := List.length_pos_of_mem hm
  rw [slot_insert (hw.accepts_remove hm hnew), if_pos rfl,
    List.length_insertIdx_of_le_length (Nat.min_le_right _ _), hw.slot_remove,
    ← eraseP_hash_eq_filter (hw.nodup _),
    List.length_eraseP_of_mem (p := (·.hash == m.hash)) hm (beq_self_eq_true _)]
  omega

theorem WellFormed.hash_ne_of_replace : e.hash ≠ m.hash := by
  intro heq
  have hstored := hw.contains_iff.2 ⟨m, mem_entries.2 ⟨_, hm⟩, heq.symm⟩
  rw [hnew] at hstored
  cases hstored

/-- The one peer that is missing after a replacement. -/
theorem WellFormed.missingFrom_replace :
    t.missingFrom ((t.remove m.hash).1.insert position e) = [m.hash] := by
  refine hw.missingFrom_eq (o := some m.hash) fun hash => ?_
  rw [contains_insert (hw.accepts_remove hm hnew), contains_remove, Option.some.injEq]
  constructor
  · rintro rfl
    refine ⟨hw.contains_iff.2 ⟨m, mem_entries.2 ⟨_, hm⟩, rfl⟩, ?_⟩
    rw [beq_false_of_ne (hw.hash_ne_of_replace hm hnew), bne_self_eq_false, Bool.false_and,
      Bool.or_false]
  · rintro ⟨hc, hno⟩
    rw [hc, Bool.and_true, Bool.or_eq_false_iff, bne_eq_false_iff_eq] at hno
    exact hno.2

end

variable {tunables : LivenessTunables} {memory : LivenessMemory} {bound gone : Finset UInt64}

section
variable (hw : t.WellFormed) {m e : Entry}
  (hg : memory.Guards bound gone (tunables.scores (t.slot e.slot.index)))
  (hm : m ∈ t.slot e.slot.index) (hnew : t.contains e.hash = false) (position : Nat)
  (hleast : ∀ x ∈ t.slot e.slot.index, (m.liveness tunables).line ≤ (x.liveness tunables).line)
  (hlt : (m.liveness tunables).lt (e.liveness tunables) = true)
include hw hg hm hnew hleast hlt

/-- **A member of the lowest score makes room** for a peer above it. -/
theorem turnover_replace (hle : (m.liveness tunables).le tunables.threshold = true) :
    Turnover tunables.threshold (tunables.scores (t.slot e.slot.index)) (tunables.scores
      (((t.remove m.hash).1.insert position e).slot e.slot.index)) := by
  have hnumber := (Binary64.isNaN_of_lt hlt).1
  have hlow : ∀ p ∈ tunables.scores (t.slot e.slot.index),
      (m.liveness tunables).le p.2 = true := by
    intro p hp
    obtain ⟨x, hx, rfl⟩ := List.mem_map.1 hp
    exact (Binary64.le_iff_line hnumber (hg.numbers _ hp)).2 (hleast x hx)
  refine ⟨⟨_, List.mem_map_of_mem hm, hlow, fun p hp => ?_⟩, fun p hp hgone => ?_⟩
  · obtain ⟨x, hx, rfl⟩ := List.mem_map.1 hp
    rcases (hw.mem_slot_replace hm hnew position).1 hx with rfl | ⟨hx, -⟩
    · exact Bool.or_eq_true_iff.2 (Or.inl hlt)
    · exact hlow _ (List.mem_map_of_mem hx)
  · obtain ⟨x, hx, rfl⟩ := List.mem_map.1 hp
    have hxm : x.hash = m.hash := by
      by_contra hne
      have hstays := (hw.mem_slot_replace hm hnew position).2 (Or.inr ⟨hx, hne⟩)
      refine hgone (List.mem_map.2 ⟨_, List.mem_map_of_mem hstays, rfl⟩)
    obtain rfl := hw.eq_of_hash hx hm hxm
    exact ⟨hlow, hle⟩

/-- The memory guards the slot after that, if it takes the score down. -/
theorem guards_replace (hsub : gone ⊆ bound) (hroom : bound.card ≤ memory.capacity)
    (hbound : m.hash ∈ bound) (hfresh : e.hash ∉ gone) :
    LivenessMemory.Guards (memory.put m.hash (m.liveness tunables)) bound (gone ∪ {m.hash})
      (tunables.scores (((t.remove m.hash).1.insert position e).slot e.slot.index)) := by
  obtain ⟨hmnumber, hnumber⟩ := Binary64.isNaN_of_lt hlt
  have hlow := (Binary64.lt_iff_line hmnumber hnumber).1 hlt
  have hmember : (m.hash, m.liveness tunables) ∈ tunables.scores (t.slot e.slot.index) :=
    List.mem_map_of_mem hm
  rw [Finset.union_comm, ← Finset.insert_eq]
  refine hg.put hsub hroom hbound (hg.away _ hmember) ?_ ?_ hmember
  · intro p hp
    obtain ⟨x, hx, rfl⟩ := List.mem_map.1 hp
    exact hleast x hx
  · intro p hp
    obtain ⟨x, hx, rfl⟩ := List.mem_map.1 hp
    rcases (hw.mem_slot_replace hm hnew position).1 hx with rfl | ⟨hx, hne⟩
    · exact ⟨hw.hash_ne_of_replace hm hnew, Or.inr ⟨hfresh, hlow.le, hnumber⟩⟩
    · exact ⟨hne, Or.inl (List.mem_map_of_mem hx)⟩

end

/-- **An offer to a full slot** is a turnover, and the memory guards the slot
    against those that are gone then. -/
theorem WellFormed.guards_offer (hw : t.WellFormed) {candidate : Candidate} {i : SlotIndex}
    (hnew : t.contains candidate.node.hash = false) (hpos : 0 < t.capacity)
    (hfull : t.capacity ≤ (t.slot i).length)
    (hg : memory.Guards bound gone (tunables.scores (t.slot i))) (hsub : gone ⊆ bound)
    (hroom : bound.card ≤ memory.capacity)
    (hmissing : (t.missingFrom (t.offer (.liveness tunables memory) candidate i).1).toFinset ⊆
      bound) :
    ∃ memory' t' a, t.offer (.liveness tunables memory) candidate i =
        (t', .liveness tunables memory', a) ∧
      memory'.capacity = memory.capacity ∧ (t'.slot i).length = (t.slot i).length ∧
      memory'.Guards bound (gone ∪ (t.missingFrom t').toFinset) (tunables.scores (t'.slot i)) ∧
      Turnover tunables.threshold (tunables.scores (t.slot i)) (tunables.scores (t'.slot i)) := by
  have htouch := hg.touch hsub hroom candidate.node.hash
  have hcapacity := memory.capacity_touch candidate.node.hash
  obtain hoffer | ⟨m, hm, position, hleast, hle, hlt, hoffer⟩ :=
    @offer_liveness tunables memory t candidate i hnew hfull
  · have hstays : t.missingFrom t = [] :=
      hw.missingFrom_eq (o := none) fun hash => ⟨nofun, fun h => by simp [h.1] at h⟩
    have hsome : 0 < (tunables.scores (t.slot i)).length := by
      rw [LivenessTunables.scores, List.length_map]
      exact hpos.trans_le hfull
    refine ⟨_, t, _, hoffer, hcapacity, rfl, ?_, .refl hsome hg.numbers⟩
    rwa [hstays, List.toFinset_nil, Finset.union_empty]
  · have hscore : ∀ own, (((t.entryOf candidate i).setLiveness own).liveness tunables) = own :=
      fun own => Entry.liveness_setLiveness ..
    have hgone : (t.missingFrom ((t.remove m.hash).1.insert position
        ((t.entryOf candidate i).setLiveness
          (memory.startingScore tunables candidate.node.hash)))).toFinset = {m.hash} := by
      rw [hw.missingFrom_replace hm hnew position]
      rfl
    rw [← hscore (memory.startingScore tunables candidate.node.hash)] at hlt
    have hfresh : candidate.node.hash ∉ gone := by
      intro hback
      have hle := hg.startingScore_le tunables hback _ (List.mem_map_of_mem hm)
      obtain ⟨hmnumber, hnumber⟩ := Binary64.isNaN_of_lt hlt
      rw [Binary64.lt_iff_line hmnumber hnumber, hscore] at hlt
      exact Int.not_lt.2 hle hlt
    rw [hoffer, hgone, Finset.singleton_subset_iff] at hmissing
    refine ⟨_, _, _, hoffer, hcapacity, hw.length_slot_replace hm hnew position, ?_,
      turnover_replace hw hg hm hnew position hleast hlt hle⟩
    rw [hgone]
    have hroom' : bound.card ≤ (memory.touch candidate.node.hash).capacity := by rwa [hcapacity]
    exact guards_replace hw htouch hm hnew position hleast hlt hsub hroom' hmissing hfresh

end SubTable

end CubeRouting
