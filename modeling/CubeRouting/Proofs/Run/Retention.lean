/-
  The retention time: how often a peer is processed.

  Notifications may overlap, so each comes with the peers that are being placed
  meanwhile (`Notice`).  A peer that was processed is skipped until the retention
  time is over, as long as the memory has room for the other peers that come in
  between.

  * `sees_receive`: what a notification does to the memory of recent peers;
  * `window_receiveAll`: what holds of the memory along a list of notifications;
  * `Reachable.retention_window`: which notifications are skipped as recent.
-/
import CubeRouting.Proofs.Placement.Records
import CubeRouting.Proofs.Recency.Window
import CubeRouting.Proofs.Run.Reachable

namespace CubeRouting

/-- A notification, and the peers that are being placed when it comes. -/
structure Notice where
  peer : NodeRecord
  time : Timestamp
  claims : InFlight

namespace Notice

/-- The hash of the peer. -/
def hash (n : Notice) : UInt64 := n.peer.hash

/-- The other peers of a list of notifications. -/
def others (ns : List Notice) (hash : UInt64) : Finset UInt64 :=
  (ns.map Notice.hash).toFinset.erase hash

/-- No notification is earlier than one before it. -/
def InOrder (ns : List Notice) : Prop := ns.Pairwise fun a b => a.time.millis ≤ b.time.millis

instance (ns : List Notice) : Decidable (InOrder ns) :=
  inferInstanceAs (Decidable (ns.Pairwise fun a b => a.time.millis ≤ b.time.millis))

theorem notMem_others (ns : List Notice) (hash : UInt64) : hash ∉ others ns hash :=
  Finset.notMem_erase hash _

theorem mem_others {ns : List Notice} {n : Notice} {hash : UInt64} (hn : n ∈ ns)
    (hne : n.hash ≠ hash) : n.hash ∈ others ns hash :=
  Finset.mem_erase.2 ⟨hne, List.mem_toFinset.2 (List.mem_map_of_mem hn)⟩

theorem others_subset {ns ns' : List Notice} (h : ns ⊆ ns') (hash : UInt64) :
    others ns hash ⊆ others ns' hash :=
  Finset.erase_subset_erase hash fun _ hk =>
    List.mem_toFinset.2 (List.map_subset Notice.hash h (List.mem_toFinset.1 hk))

/-- The times since an earlier notification are in order. -/
theorem since_le {a b : Notice} (h : a.time.millis ≤ b.time.millis) (time : Timestamp) :
    a.time.since time ≤ b.time.since time := Nat.sub_le_sub_right h time.millis

end Notice

/-- The peer was offered to the tables. -/
def Outcome.isProcessed : Outcome → Bool
  | processed _ => true
  | skipped _ => false

namespace Engine

/-- The engine after a notification, and what came of it. -/
def receive (e : Engine) (n : Notice) : Engine × Outcome :=
  { e with inFlight := n.claims }.notify n.peer n.time

/-- The engine after a list of notifications. -/
def receiveAll (e : Engine) (ns : List Notice) : Engine := ns.foldl (fun e n => (e.receive n).1) e

/-- The peers of a list of notifications that are processed. -/
def processedOf (e : Engine) : List Notice → List UInt64
  | [] => []
  | n :: ns =>
    let rest := (e.receive n).1.processedOf ns
    if (e.receive n).2.isProcessed then n.hash :: rest else rest

variable {e : Engine} {n : Notice} {ns : List Notice} {hash : UInt64}

/-- A peer that is processed is so after some of the notifications. -/
theorem mem_processedOf (h : hash ∈ e.processedOf ns) :
    ∃ front n back, ns = front ++ n :: back ∧ n.hash = hash ∧
      ((e.receiveAll front).receive n).2.isProcessed = true := by
  induction ns generalizing e with
  | nil => cases h
  | cons n ns ih =>
    have hrest : hash ∈ (e.receive n).1.processedOf ns → ∃ front n' back,
        n :: ns = front ++ n' :: back ∧ n'.hash = hash ∧
          ((e.receiveAll front).receive n').2.isProcessed = true := by
      intro h
      obtain ⟨front, n', back, rfl, hhash, hprocessed⟩ := ih h
      exact ⟨n :: front, n', back, rfl, hhash, hprocessed⟩
    rw [processedOf] at h
    split at h
    · rename_i hprocessed
      rcases List.mem_cons.1 h with rfl | h
      · exact ⟨[], n, ns, rfl, rfl, hprocessed⟩
      · exact hrest h
    · exact hrest h

/-! ## The memory -/

theorem checkRecent_some {w : RecencyWindow} (hw : e.recent = some w) (hash : UInt64)
    (time : Timestamp) : (e.checkRecent hash time).1 = (w.check hash time).1 ∧
      (e.checkRecent hash time).2.recent = some (w.check hash time).2 := by
  rw [checkRecent, hw]
  exact ⟨rfl, rfl⟩

theorem sees_notify {w : RecencyWindow} (hw : e.recent = some w) (peer : NodeRecord)
    (time : Timestamp) : ∃ w', (e.notify peer time).1.recent = some w' ∧
      w.Sees peer.hash time (e.notify peer time).2.isProcessed w' := by
  obtain ⟨-, hcheck⟩ := checkRecent_some hw peer.hash time
  cases hout : (e.notify peer time).2 with
  | skipped reason =>
    obtain ⟨recent, hrecent, heq⟩ := notify_skipped hout
    rw [heq]
    rcases hrecent with rfl | rfl
    · exact ⟨w, hw, .idle⟩
    · exact ⟨_, hcheck, .checked⟩
  | processed report =>
    have hrecent := (e.notify_ends peer time).recent report hout
    rw [hcheck] at hrecent
    exact ⟨_, hrecent, .recorded⟩

/-- **What a notification does to the memory of recent peers.** -/
theorem sees_receive {w : RecencyWindow} (hw : e.recent = some w) (n : Notice) :
    ∃ w', (e.receive n).1.recent = some w' ∧
      w.Sees n.hash n.time (e.receive n).2.isProcessed w' :=
  sees_notify (e := { e with inFlight := n.claims }) hw n.peer n.time

/-- A peer that is not being placed is skipped as recent if the memory says
    so. -/
theorem receive_recent_iff (hself : n.hash ≠ e.self.hash)
    (hshape : n.peer.id.shape = e.self.id.shape) (hfree : n.claims.contains n.hash = false) :
    (e.receive n).2 = .skipped .recentlyProcessed ↔ (e.checkRecent n.hash n.time).1 = true := by
  rw [← (e.checkRecent_claimed n.claims n.hash n.time).1]
  exact notify_recent_iff hself hshape hfree

/-- A peer that is processed is not the node and was not recent. -/
theorem gate_of_isProcessed (h : (e.receive n).2.isProcessed = true) :
    n.hash ≠ e.self.hash ∧ (e.checkRecent n.hash n.time).1 = false := by
  rw [receive] at h
  cases hout : ({ e with inFlight := n.claims }.notify n.peer n.time).2 with
  | skipped reason =>
    rw [hout] at h
    cases h
  | processed report =>
    refine ⟨(notify_processed hout).1, ?_⟩
    rw [← (e.checkRecent_claimed n.claims n.hash n.time).1]
    exact notRecent_of_processed hout

/-- The memory of recent peers is in use and has a property. -/
def HasWindow (e : Engine) (P : RecencyWindow → Prop) : Prop := ∃ w, e.recent = some w ∧ P w

/-- **What every notification of a list keeps, the list keeps.** -/
theorem window_receiveAll {P : RecencyWindow → Prop} (h : e.HasWindow P)
    (hstep : ∀ n ∈ ns, ∀ {w w' processed}, P w → w.Sees n.hash n.time processed w' →
      (n.hash ∉ e.processedOf ns → processed = false) → P w') :
    (e.receiveAll ns).HasWindow P := by
  induction ns generalizing e with
  | nil => exact h
  | cons n ns ih =>
    obtain ⟨w, hw, hP⟩ := h
    obtain ⟨w', hw', hsees⟩ := sees_receive hw n
    have hhead : n.hash ∉ e.processedOf (n :: ns) → (e.receive n).2.isProcessed = false := by
      intro hno
      by_contra hprocessed
      rw [Bool.not_eq_false] at hprocessed
      rw [processedOf, if_pos hprocessed] at hno
      exact hno List.mem_cons_self
    refine ih ⟨w', hw', hstep n List.mem_cons_self hP hsees hhead⟩ ?_
    intro n' hn' w w' processed hP hsees hno
    refine hstep n' (List.mem_cons_of_mem n hn') hP hsees fun hno' => hno fun hmem => hno' ?_
    rw [processedOf]
    split
    · exact List.mem_cons_of_mem n.hash hmem
    · exact hmem

theorem keeps_receive (e : Engine) (n : Notice) : (e.receive n).1.Keeps e :=
  ({ e with inFlight := n.claims }.keeps_notify n.peer n.time).trans ⟨rfl, rfl, rfl⟩

theorem keeps_receiveAll (e : Engine) (ns : List Notice) : (e.receiveAll ns).Keeps e := by
  induction ns generalizing e with
  | nil => exact Keeps.refl e
  | cons n ns ih => exact (ih _).trans (e.keeps_receive n)

theorem fits_receiveAll {retention room : Nat} (h : e.HasWindow (·.Fits retention room))
    (ns : List Notice) : (e.receiveAll ns).HasWindow (·.Fits retention room) := by
  refine window_receiveAll h ?_
  intro n _ w w' processed hfits hsees _
  exact hsees.fits hfits

/-! ## After a peer was processed -/

section
variable {retention room : Nat} (hw : e.HasWindow (·.Fits retention room)) (hroom : 0 < room)
  {first last : Notice} {between : List Notice}
  (hfirst : (e.receive first).2.isProcessed = true) (hhash : last.hash = first.hash)
include hw hroom hfirst

/-- The peer is remembered. -/
theorem window_first (others : Finset UInt64) : (e.receive first).1.HasWindow fun w =>
    w.Fits retention room ∧ w.seen.HasBehind first.hash first.time others ∧
      w.seen.Binds first.hash first.time := by
  obtain ⟨w, hw, hfits⟩ := hw
  obtain ⟨w', hw', hsees⟩ := sees_receive hw first
  refine ⟨w', hw', hsees.fits hfits, ?_⟩
  rw [hfirst] at hsees
  cases hsees with
  | recorded =>
    refine RecencyWindow.seen_record ?_ first.hash first.time others
    rw [(hfits.check first.hash first.time).room]
    exact hroom

/-- Its time does not change until it is processed again. -/
theorem window_binds (hagain : first.hash ∉ (e.receive first).1.processedOf between) :
    ((e.receive first).1.receiveAll between).HasWindow fun w =>
      w.Fits retention room ∧ w.seen.Binds first.hash first.time := by
  obtain ⟨w, hrecent, hfits, -, hbinds⟩ := window_first hw hroom hfirst ∅
  refine window_receiveAll ⟨w, hrecent, hfits, hbinds⟩ ?_
  intro n _ w w' processed hP hsees hno
  exact ⟨hsees.fits hP.1, hsees.binds hP.2 fun heq => hno (heq ▸ hagain)⟩

/-- It is known as long as there is room for the others. -/
theorem window_hasBehind (hagain : first.hash ∉ (e.receive first).1.processedOf between)
    (hothers : (Notice.others between first.hash).card < room)
    (htimes : ∀ n ∈ between, n.time.since first.time < retention) :
    ((e.receive first).1.receiveAll between).HasWindow fun w => w.Fits retention room ∧
      w.seen.HasBehind first.hash first.time (Notice.others between first.hash) := by
  obtain ⟨w, hrecent, hfits, hbehind, -⟩ :=
    window_first hw hroom hfirst (Notice.others between first.hash)
  refine window_receiveAll ⟨w, hrecent, hfits, hbehind⟩ ?_
  intro n hn w w' processed hP hsees hno
  refine ⟨hsees.fits hP.1, hsees.hasBehind hP.2 (Notice.notMem_others _ _) ?_ (fun heq => ?_)
    fun hne => Notice.mem_others hn hne⟩
  · rwa [hP.1.room]
  · rw [hP.1.retention]
    exact ⟨hno (heq ▸ hagain), htimes n hn⟩

variable (hhash : last.hash = first.hash)
include hhash

/-- Before the retention time is over the peer is recent. -/
theorem recent_of_since_lt (hagain : first.hash ∉ (e.receive first).1.processedOf between)
    (hothers : (Notice.others between first.hash).card < room)
    (horder : Notice.InOrder (between ++ [last]))
    (hsince : last.time.since first.time < retention) :
    (((e.receive first).1.receiveAll between).checkRecent last.hash last.time).1 = true := by
  have htimes : ∀ n ∈ between, n.time.since first.time < retention := fun n hn =>
    Nat.lt_of_le_of_lt (Notice.since_le ((List.pairwise_append.1 horder).2.2 n hn last
      List.mem_cons_self) first.time) hsince
  obtain ⟨w, hrecent, hfits, hbehind⟩ :=
    window_hasBehind hw hroom hfirst hagain hothers htimes
  rw [(checkRecent_some hrecent last.hash last.time).1, hhash,
    RecencyWindow.check_of_hasBehind hbehind (Notice.notMem_others _ _), hfits.retention,
    decide_eq_true hsince]

/-- Once it is over the peer is not recent. -/
theorem notRecent_of_le_since (hagain : first.hash ∉ (e.receive first).1.processedOf between)
    (hsince : retention ≤ last.time.since first.time) :
    (((e.receive first).1.receiveAll between).checkRecent last.hash last.time).1 = false := by
  obtain ⟨w, hrecent, hfits, hbinds⟩ := window_binds hw hroom hfirst hagain
  rw [(checkRecent_some hrecent last.hash last.time).1, hhash]
  refine RecencyWindow.check_of_binds hbinds ?_
  rwa [hfits.retention]

omit hhash in
/-- **A peer is processed again after the retention time only**, if few enough
    others come in between. -/
theorem le_since_of_isProcessed (hhash : last.hash = first.hash)
    (hothers : (Notice.others between first.hash).card < room)
    (horder : Notice.InOrder (between ++ [last]))
    (hlast : (((e.receive first).1.receiveAll between).receive last).2.isProcessed = true) :
    retention ≤ last.time.since first.time := by
  -- on the number of notifications: it may be processed in between
  induction hlen : between.length using Nat.strong_induction_on generalizing between last with
  | _ len ih =>
    by_cases hagain : first.hash ∈ (e.receive first).1.processedOf between
    · obtain ⟨front, n, back, rfl, hn, hprocessed⟩ := mem_processedOf hagain
      have horder' : Notice.InOrder (front ++ [n]) := by
        refine List.Pairwise.sublist ?_ horder
        rw [List.append_assoc]
        exact (List.Sublist.refl front).append
          (List.cons_sublist_cons.2 (List.nil_sublist (back ++ [last])))
      have hothers' : (Notice.others front first.hash).card < room :=
        Nat.lt_of_le_of_lt (Finset.card_le_card
          (Notice.others_subset (List.subset_append_left front (n :: back)) first.hash)) hothers
      have hlt : front.length < len := by
        rw [← hlen, List.length_append, List.length_cons]
        omega
      have hle : n.time.millis ≤ last.time.millis := (List.pairwise_append.1 horder).2.2 n
        (List.mem_append_right front List.mem_cons_self) last List.mem_cons_self
      exact (ih front.length hlt hn hothers' horder' hprocessed rfl).trans
        (Notice.since_le hle first.time)
    · by_contra hsince
      have hrecent := recent_of_since_lt hw hroom hfirst hhash hagain hothers horder
        (Nat.lt_of_not_le hsince)
      rw [(gate_of_isProcessed hlast).2] at hrecent
      cases hrecent

end

end Engine

/-! ## Nodes -/

variable {key : Identifier → UInt64} {c : Config} {self : Identifier} {s : Service}

/-- A node with a retention time remembers recent peers. -/
theorem Reachable.hasWindow (h : Reachable key c self s) (hretention : 0 < c.retention) :
    s.engine.HasWindow (·.Fits c.retention (max c.recencyCapacity 1)) := by
  refine h.induction_engine (P := (·.HasWindow (·.Fits c.retention (max c.recencyCapacity 1))))
    (fun node entropy => ?_) (fun _ _ he => he) fun e peer time he => ?_
  · exact ⟨.empty c.retention c.recencyCapacity, if_pos hretention, rfl, rfl⟩
  · obtain ⟨w, hw, hfits⟩ := he
    obtain ⟨w', hw', hsees⟩ := Engine.sees_notify hw peer time
    exact ⟨w', hw', hsees.fits hfits⟩

end CubeRouting
