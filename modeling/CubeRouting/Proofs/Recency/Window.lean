/-
  What the memory of recent peers says of a peer that was processed.

  `Sees` is all that one notification can do to the memory.

  * `check_of_hasBehind`: a peer that the memory still has is recent until the
    retention time is over;
  * `check_of_binds`: after that no peer is recent;
  * `Sees.hasBehind`, `Sees.binds`: what notifications of other peers, and of
    the peer itself, leave of this.
-/
import CubeRouting.Proofs.Recency.LruCache
import CubeRouting.Recency.Window

namespace CubeRouting.RecencyWindow

variable {w w' : RecencyWindow} {hash key : UInt64} {now time : Timestamp}
  {others : Finset UInt64}

/-! ## Look-ups -/

theorem check_of_hasBehind (h : w.seen.HasBehind hash time others) (hhash : hash ∉ others)
    (now : Timestamp) : (w.check hash now).1 = decide (now.since time < w.retention) := by
  rw [check, h.get? hhash]
  dsimp only
  split
  · rename_i hrecent
    rw [decide_eq_true hrecent]
  · rename_i hold
    rw [decide_eq_false hold]

theorem check_of_binds (h : w.seen.Binds hash time) (hold : w.retention ≤ now.since time) :
    (w.check hash now).1 = false := by
  unfold check
  split
  · rename_i time' htime
    obtain rfl := h.eq_of_get? htime
    rw [if_neg (Nat.not_lt.2 hold)]
  · rfl

/-- A look-up uses a key, drops it or does nothing. -/
theorem seen_check (w : RecencyWindow) (hash : UInt64) (now : Timestamp) :
    (w.check hash now).2.seen = w.seen.touch hash ∨
      (w.check hash now).2.seen = w.seen.erase hash ∨ (w.check hash now).2 = w := by
  unfold check
  split
  · split
    · exact Or.inl rfl
    · exact Or.inr (Or.inl rfl)
  · exact Or.inr (Or.inr rfl)

/-! ## Notifications -/

/-- A memory with a retention time and room for so many peers. -/
structure Fits (w : RecencyWindow) (retention room : Nat) : Prop where
  retention : w.retention = retention
  room : w.seen.capacity = room

/-- What a notification does to the memory: nothing, a look-up, or a look-up and
    a record of a peer that was processed. -/
inductive Sees (w : RecencyWindow) (hash : UInt64) (now : Timestamp) :
    Bool → RecencyWindow → Prop where
  | idle : Sees w hash now false w
  | checked : Sees w hash now false (w.check hash now).2
  | recorded : Sees w hash now true ((w.check hash now).2.record hash now)

variable {retention room : Nat} {processed : Bool}

theorem Fits.check (h : w.Fits retention room) (hash : UInt64) (now : Timestamp) :
    (w.check hash now).2.Fits retention room := by
  refine ⟨?_, ?_⟩
  · rw [← h.retention, RecencyWindow.check]
    split
    · split <;> rfl
    · rfl
  · rw [← h.room]
    rcases w.seen_check hash now with heq | heq | heq
    · rw [heq, LruCache.capacity_touch]
    · rw [heq]
      rfl
    · rw [heq]

namespace Sees

theorem fits (h : w.Sees key now processed w') (hw : w.Fits retention room) :
    w'.Fits retention room := by
  cases h with
  | idle => exact hw
  | checked => exact hw.check key now
  | recorded => exact ⟨(hw.check key now).retention, (hw.check key now).room⟩

/-- A value stays until its key is processed again. -/
theorem binds (h : w.Sees key now processed w') (hb : w.seen.Binds hash time)
    (hkey : key = hash → processed = false) : w'.seen.Binds hash time := by
  have hcheck : (w.check key now).2.seen.Binds hash time := by
    rcases w.seen_check key now with heq | heq | heq <;> rw [heq]
    · exact hb.touch key
    · exact hb.erase key
    · exact hb
  cases h with
  | idle => exact hb
  | checked => exact hcheck
  | recorded => exact hcheck.put_other (fun heq => Bool.noConfusion (hkey heq)) now

/-- **A peer stays** if few enough others come and it is not looked up after its
    time. -/
theorem hasBehind (h : w.Sees key now processed w') (hb : w.seen.HasBehind hash time others)
    (hhash : hash ∉ others) (hroom : others.card < w.seen.capacity)
    (hself : key = hash → processed = false ∧ now.since time < w.retention)
    (hother : key ≠ hash → key ∈ others) : w'.seen.HasBehind hash time others := by
  have hcheck : (w.check key now).2.seen.HasBehind hash time others := by
    by_cases hkey : key = hash
    · subst hkey
      rw [check, hb.get? hhash]
      dsimp only
      rw [if_pos (hself rfl).2]
      exact hb.touch hhash (Nat.zero_lt_of_lt hroom)
    · rcases w.seen_check key now with heq | heq | heq <;> rw [heq]
      · exact hb.touch_other hkey (hother hkey) hroom
      · exact (hb.erase_other hkey).mono (Finset.erase_subset key others)
      · exact hb
  cases h with
  | idle => exact hb
  | checked => exact hcheck
  | recorded =>
    have hkey : key ≠ hash := fun heq => Bool.noConfusion (hself heq).1
    have hfits : (w.check key now).2.seen.capacity = w.seen.capacity :=
      (Fits.check ⟨rfl, rfl⟩ key now).room
    exact hcheck.put_other hkey (hother hkey) (by rwa [hfits]) now

end Sees

/-- A peer that is recorded is known, and under no other time. -/
theorem seen_record (hroom : 0 < w.seen.capacity) (hash : UInt64) (now : Timestamp)
    (others : Finset UInt64) : (w.record hash now).seen.HasBehind hash now others ∧
      (w.record hash now).seen.Binds hash now :=
  ⟨.put hroom hash now others, w.seen.binds_put hash now⟩

end CubeRouting.RecencyWindow
