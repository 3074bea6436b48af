/-
  What a node records of its notifications.

  Beside its tables and policies a node keeps the claims of the peers that are
  being placed, the memory of recent peers and its counters.  Placement leaves
  all three alone; only the gate and the end of a notification use them.

  * `notify_ends`: the claims are as before on every way out, and the outcome is
    counted once;
  * `notify_claimed_iff`, `notify_recent_iff`: which peers are refused as being
    placed, and which as recent.
-/
import CubeRouting.Proofs.Placement.Notify

namespace CubeRouting

namespace Engine

variable {e e' e'' : Engine} {peer : NodeRecord} {time : Timestamp}

/-! ## Placement -/

/-- What placement leaves alone. -/
structure SameRecords (e' e : Engine) : Prop where
  inFlight : e'.inFlight = e.inFlight
  recent : e'.recent = e.recent
  counters : e'.counters = e.counters

theorem SameRecords.refl (e : Engine) : e.SameRecords e := ⟨rfl, rfl, rfl⟩

theorem SameRecords.trans (h : e''.SameRecords e') (h' : e'.SameRecords e) : e''.SameRecords e :=
  ⟨h.inFlight.trans h'.inFlight, h.recent.trans h'.recent, h.counters.trans h'.counters⟩

theorem sameRecords_placeNs (e : Engine) (candidate : Candidate) :
    (e.placeNs candidate).1.SameRecords e := by
  unfold placeNs
  split <;> exact ⟨rfl, rfl, rfl⟩

theorem sameRecords_placePrimary (e : Engine) (cells : Option Cells) (candidate : Candidate) :
    (e.placePrimary cells candidate).1.SameRecords e := by
  cases cells <;> exact ⟨rfl, rfl, rfl⟩

theorem sameRecords_placeSecure (e : Engine) (cells : Option Cells) (candidate : Candidate) :
    (e.placeSecure cells candidate).1.SameRecords e := by
  unfold placeSecure
  split <;> exact ⟨rfl, rfl, rfl⟩

theorem sameRecords_place (e : Engine) (peer : NodeRecord) (standing : Standing)
    (time : Timestamp) : (e.place peer standing time).1.SameRecords e := by
  rw [place_eq rfl]
  exact (sameRecords_placeSecure ..).trans
    ((sameRecords_placePrimary ..).trans (sameRecords_placeNs ..))

/-! ## A claimed peer -/

/-- How a notification ends. -/
structure Ends (e : Engine) (peer : NodeRecord) (time : Timestamp) (r : Engine × Outcome) :
    Prop where
  /-- No claim is left, and none is lost. -/
  inFlight : r.1.inFlight = e.inFlight
  counters : r.1.counters = e.counters.record r.2
  /-- A peer that was placed is recorded after it was looked up. -/
  recent : ∀ report, r.2 = .processed report → r.1.recent =
    (e.checkRecent peer.hash time).2.recent.map fun w => w.record peer.hash time

theorem ends_skip (peer : NodeRecord) (time : Timestamp) (h : e'.inFlight = e.inFlight)
    (h' : e'.counters = e.counters) (reason : SkipReason) :
    e.Ends peer time (e'.skip reason) where
  inFlight := h
  counters := by
    rw [← h']
    rfl
  recent _ h := by cases h

theorem conflict?_cases (e : Engine) (peer : NodeRecord) :
    e.conflict? peer = none ∨ e.conflict? peer = some .hashCollision ∨
      e.conflict? peer = some .addressConflict := by
  unfold conflict?
  dsimp only
  split
  · exact Or.inr (Or.inl rfl)
  split
  · exact Or.inr (Or.inr rfl)
  · exact Or.inl rfl

theorem process_ends (e : Engine) (peer : NodeRecord) (time : Timestamp) :
    e.Ends peer time (e.process peer time) := by
  unfold process
  rw [e.checkRecent_eq]
  dsimp only
  have hskip : ∀ reason, e.Ends peer time
      ({ e with recent := (e.checkRecent peer.hash time).2.recent }.skip reason) :=
    ends_skip peer time rfl rfl
  split
  · exact hskip _
  split
  · exact hskip _
  · exact hskip _
  · rename_i standing _ _
    generalize he : ({ e with
      recent := (e.checkRecent peer.hash time).2.recent
      tables := (e.tables.updateAddress peer).1 } : Engine) = e'
    have hplace := e'.sameRecords_place peer standing time
    generalize e'.place peer standing time = placed at hplace
    subst he
    refine ⟨hplace.inFlight, ?_, fun _ _ => ?_⟩
    · exact congrArg (Counters.record · (.processed placed.2)) hplace.counters
    · exact congrArg (Option.map fun w : RecencyWindow => w.record peer.hash time) hplace.recent

/-- A claimed peer is refused as recent if it was processed a short time ago,
    and never as being placed. -/
theorem process_refusals (e : Engine) (peer : NodeRecord) (time : Timestamp) :
    (e.process peer time).2 ≠ .skipped .alreadyInProgress ∧
      ((e.process peer time).2 = .skipped .recentlyProcessed ↔
        (e.checkRecent peer.hash time).1 = true) := by
  unfold process
  rw [e.checkRecent_eq]
  dsimp only
  split
  · rename_i hrecent
    exact ⟨nofun, iff_of_true rfl hrecent⟩
  rename_i hrecent
  split
  · rename_i reason _ hconflict
    refine ⟨fun h => ?_, iff_of_false (fun h => ?_) hrecent⟩ <;>
    · cases h
      rcases conflict?_cases _ peer with h | h | h <;> rw [h] at hconflict <;> cases hconflict
  · exact ⟨nofun, iff_of_false nofun hrecent⟩
  · exact ⟨nofun, iff_of_false nofun hrecent⟩

/-! ## A notification -/

/-- **How a notification ends**: the claims are as before, and the outcome is
    counted. -/
theorem notify_ends (e : Engine) (peer : NodeRecord) (time : Timestamp) :
    e.Ends peer time (e.notify peer time) := by
  unfold notify
  split
  · exact ends_skip peer time rfl rfl _
  split
  · exact ends_skip peer time rfl rfl _
  cases hclaim : e.inFlight.acquire? peer.hash with
  | none => exact ends_skip peer time rfl rfl _
  | some claimed =>
    have hends := ({ e with inFlight := claimed } : Engine).process_ends peer time
    dsimp only
    refine ⟨?_, hends.counters, fun report h => ?_⟩
    · dsimp only
      rw [hends.inFlight, InFlight.release_of_acquire? hclaim]
    · rw [← (e.checkRecent_claimed claimed peer.hash time).2]
      exact hends.recent report h

section
variable (hself : peer.hash ≠ e.self.hash) (hshape : peer.id.shape = e.self.id.shape)
include hself hshape

/-- **A peer is refused as being placed if it is claimed.** -/
theorem notify_claimed_iff : (e.notify peer time).2 = .skipped .alreadyInProgress ↔
    e.inFlight.contains peer.hash = true := by
  unfold notify
  rw [if_neg hself, if_neg (not_not.2 hshape), InFlight.acquire?]
  split
  · rename_i hno
    split at hno
    · rename_i hclaimed
      exact iff_of_true rfl hclaimed
    · cases hno
  · rename_i claimed hsome
    split at hsome
    · cases hsome
    · rename_i hfree
      exact iff_of_false (process_refusals _ peer time).1 hfree

/-- **A peer that is not being placed is refused as recent if it is
    remembered so.** -/
theorem notify_recent_iff (hfree : e.inFlight.contains peer.hash = false) :
    (e.notify peer time).2 = .skipped .recentlyProcessed ↔
      (e.checkRecent peer.hash time).1 = true := by
  unfold notify
  rw [if_neg hself, if_neg (not_not.2 hshape), InFlight.acquire?, hfree, if_neg Bool.false_ne_true]
  dsimp only
  rw [(process_refusals _ peer time).2, (checkRecent_claimed ..).1]

end

/-- A peer that is placed was not recent. -/
theorem notRecent_of_processed {report : Report} (h : (e.notify peer time).2 = .processed report) :
    (e.checkRecent peer.hash time).1 = false := by
  obtain ⟨reason, hskip, -⟩ | ⟨hself, hshape, -⟩ := e.notify_cases peer time
  · rw [hskip] at h
    cases h
  have hfree : e.inFlight.contains peer.hash = false := by
    by_contra hclaimed
    rw [Bool.not_eq_false] at hclaimed
    rw [(notify_claimed_iff hself hshape).2 hclaimed] at h
    cases h
  by_contra hrecent
  rw [Bool.not_eq_false] at hrecent
  rw [(notify_recent_iff hself hshape hfree).2 hrecent] at h
  cases h

/-- A node without a memory of recent peers gets none. -/
theorem recent_notify_eq_none (h : e.recent = none) (peer : NodeRecord) (time : Timestamp) :
    (e.notify peer time).1.recent = none := by
  have hcheck : (e.checkRecent peer.hash time).2.recent = none := by
    rw [checkRecent, h]
    exact h
  cases hout : (e.notify peer time).2 with
  | skipped reason =>
    obtain ⟨recent, hrecent, heq⟩ := notify_skipped hout
    rw [heq]
    rcases hrecent with rfl | rfl
    · exact h
    · exact hcheck
  | processed report =>
    rw [(e.notify_ends peer time).recent report hout, hcheck]
    rfl

/-- The node and its configuration stay. -/
theorem keeps_notify (e : Engine) (peer : NodeRecord) (time : Timestamp) :
    (e.notify peer time).1.Keeps e := by
  obtain ⟨reason, -, hsame⟩ | ⟨-, -, -, standing, e₀, -, he₀, -, hsame⟩ := e.notify_cases peer time
  · exact hsame.keeps
  · have hplaces := e₀.places_place peer standing time
    exact hsame.keeps.trans (hplaces.keeps.trans (he₀.keeps.trans ⟨rfl, rfl, rfl⟩))

end Engine

end CubeRouting
