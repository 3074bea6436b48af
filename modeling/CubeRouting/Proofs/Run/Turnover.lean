/-
  A full neighborhood set under the liveness policy.

  A node serves requests that take nothing out of its tables and set no
  liveness scores: peers are seen, again and again and in any order.  The
  neighborhood set takes dead peers out for live ones, and the memory of the
  policy keeps the dead ones out.

  * `Request.IsCalm`: these requests; those that bring no peers leave the
    scores as they are (`Invariant.sameScores_handle`);
  * `Service.departed`: the peers that left the neighborhood set in a run;
  * `Reachable.turnsOver_handle`: what one request makes of the neighborhood set;
  * `Reachable.departed_stay_out`: what a run makes of it.
-/
import CubeRouting.Proofs.Placement.Turnover
import CubeRouting.Proofs.Policy.Faults
import CubeRouting.Proofs.Run.Neighborhood
import CubeRouting.Proofs.Run.Sweeps

namespace CubeRouting

variable {key : Identifier → UInt64} {c : Config} {self : Identifier} {s : Service}

/-! ## Entries -/

section
variable {tunables : LivenessTunables}

theorem LivenessTunables.scores_map {f : Entry → Entry} {members : List Entry}
    (hf : ∀ e ∈ members, (f e).hash = e.hash ∧ (f e).liveness tunables = e.liveness tunables) :
    tunables.scores (members.map f) = tunables.scores members := by
  rw [scores, scores, List.map_map]
  exact List.map_congr_left fun e he => Prod.ext (hf e he).1 (hf e he).2

theorem Metadata.lookup_put_of_ne (data : Metadata) {k k' : String} (hne : k' ≠ k)
    (value : MetaValue) : (data.put k value).lookup k' = data.lookup k' := by
  rw [put, List.lookup_cons, beq_false_of_ne hne]
  dsimp only
  induction data with
  | nil => rfl
  | cons p data ih =>
    by_cases hp : p.1 = k
    · rw [List.filter_cons_of_neg (by simpa using hp), List.lookup_cons, ih,
        beq_false_of_ne (hp ▸ hne)]
    · rw [List.filter_cons_of_pos (by simpa using hp), List.lookup_cons, List.lookup_cons, ih]

/-- Other metadata do not change the score. -/
theorem Entry.liveness_setData (e : Entry) {k : String} (hne : k ≠ livenessKey)
    (value : MetaValue) : (e.setData k value).liveness tunables = e.liveness tunables := by
  rw [liveness, liveness, data?, data?, setData, Metadata.lookup_put_of_ne _ hne.symm]

/-! ## Tables -/

namespace RoutingTable

/-- The peers in the slots of `t'` are those of `t`, with the same scores. -/
def SameScores (tunables : LivenessTunables) (t t' : RoutingTable) : Prop :=
  ∀ kind i, tunables.scores ((t'.get kind).slot i) = tunables.scores ((t.get kind).slot i)

variable {t : RoutingTable}

section
variable (hw : ∀ kind, (t.get kind).WellFormed)
include hw

theorem sameScores_updateEntries {f : Entry → Option Entry} (hash : UInt64)
    (hf : ∀ e e', f e = some e' → e'.hash = e.hash ∧ e'.liveness tunables = e.liveness tunables) :
    t.SameScores tunables (t.updateEntries hash f).1 := by
  intro kind i
  rw [get_updateEntries]
  split
  · rename_i e₁ he₁
    obtain ⟨e₀, he₀, hfe⟩ := Option.bind_eq_some_iff.1 he₁
    rw [(hw kind).slot_modify]
    refine LivenessTunables.scores_map fun e he => ?_
    split
    · rename_i hh
      have hsome := (hw kind).get?_eq_some_iff.2 ⟨SubTable.mem_entries.2 ⟨i, he⟩, hh⟩
      obtain rfl := Option.some.inj (he₀.symm.trans hsome)
      exact hf e₀ e₁ hfe
    · exact ⟨rfl, rfl⟩
  · rfl

theorem sameScores_set_modify {f : Entry → Entry} (kind : TableKind) (hash : UInt64)
    (hf : ∀ e, (f e).hash = e.hash ∧ (f e).liveness tunables = e.liveness tunables) :
    t.SameScores tunables (t.set kind ((t.get kind).modify hash f)) := by
  intro other i
  rw [get_set]
  split
  · rename_i heq
    rw [heq, (hw kind).slot_modify]
    refine LivenessTunables.scores_map fun e _ => ?_
    split
    · exact hf e
    · exact ⟨rfl, rfl⟩
  · rfl

theorem sameScores_updateAddress (peer : NodeRecord) :
    t.SameScores tunables (t.updateAddress peer).1 := by
  refine sameScores_updateEntries hw peer.hash fun e e' he' => ?_
  split at he'
  · cases he'
    exact ⟨rfl, rfl⟩
  · cases he'

end

theorem sameScores_updateAll {f : Entry → Entry}
    (hf : ∀ e, (f e).hash = e.hash ∧ (f e).liveness tunables = e.liveness tunables) :
    t.SameScores tunables (t.updateAll f) := by
  intro kind i
  rw [get_updateAll, SubTable.slot_modifyAll]
  exact LivenessTunables.scores_map fun e _ => hf e

end RoutingTable

end

/-! ## Requests -/

/-- A request that takes nothing out of the tables and sets no liveness scores.
    The peers of a recovery reply come one by one. -/
def Request.IsCalm : Request → Prop
  | setTime _ | notify .. | setEnabled .. | setEnabledIn .. | setAllEnabled _
  | updateAddress .. => True
  | setData _ _ k _ => k ≠ Entry.livenessKey
  | recoveryReply _ | recordPong _ | recordMissedPong _ | evictDead _ | removePeer _
  | removeFrom .. | removeWhere _ => False

/-- **A calm request that brings no peers** leaves the scores as they are. -/
theorem Invariant.sameScores_handle (h : Invariant key c self s) {tunables : LivenessTunables}
    {r : Request} (hr : r.peers = []) (hcalm : r.IsCalm) :
    s.tables.SameScores tunables (s.handle key r).1.tables := by
  have hw : ∀ kind, (s.tables.get kind).WellFormed := h.wellFormed
  cases r with
  | setTime now => exact fun _ _ => rfl
  | notify id address => cases hr
  | setEnabled hash enabled =>
    refine RoutingTable.sameScores_updateEntries hw hash fun e e' he' => ?_
    split at he'
    · cases he'
    · cases he'
      exact ⟨rfl, rfl⟩
  | setEnabledIn kind hash enabled =>
    exact RoutingTable.sameScores_set_modify hw kind hash fun _ => ⟨rfl, rfl⟩
  | setAllEnabled enabled => exact RoutingTable.sameScores_updateAll fun _ => ⟨rfl, rfl⟩
  | setData kind hash k value =>
    simp only [Service.handle, Service.setData, RoutingTable.setData?_eq]
    cases (s.tables.get kind).get? hash with
    | none => exact fun _ _ => rfl
    | some e =>
      exact RoutingTable.sameScores_set_modify hw kind hash fun e =>
        ⟨rfl, e.liveness_setData hcalm value⟩
  | updateAddress id address => exact RoutingTable.sameScores_updateAddress hw _
  | _ => exact hcalm.elim

/-! ## The neighborhood set -/

namespace SubTable

variable {t t' t₁ : SubTable} {tunables : LivenessTunables} {hash : UInt64}

theorem WellFormed.contains_iff_scores (hw : t.WellFormed) (tunables : LivenessTunables) :
    t.contains hash = true ↔ hash ∈ (tunables.scores t.entries).map Prod.fst := by
  rw [hw.contains_iff, LivenessTunables.scores, List.map_map, List.mem_map]
  rfl

/-- Tables with the same scores miss the same peers. -/
theorem missingFrom_congr (hw : t.WellFormed) (hw₁ : t₁.WellFormed)
    (hscores : tunables.scores t₁.entries = tunables.scores t.entries) (t' : SubTable) :
    (t₁.missingFrom t').toFinset = (t.missingFrom t').toFinset := by
  ext hash
  rw [List.mem_toFinset, List.mem_toFinset, hw.mem_missingFrom, hw₁.mem_missingFrom,
    hw.contains_iff_scores tunables, hw₁.contains_iff_scores tunables, hscores]

theorem WellFormed.missingFrom_self (hw : t.WellFormed) : (t.missingFrom t).toFinset = ∅ := by
  refine Finset.eq_empty_iff_forall_notMem.2 fun hash hmem => ?_
  obtain ⟨hc, hno⟩ := hw.mem_missingFrom.1 (List.mem_toFinset.1 hmem)
  rw [hc] at hno
  cases hno

end SubTable

/-- The neighborhood set is full, and the memory of its policy guards it. -/
structure Service.Guarded (c : Config) (bound gone : Finset UInt64) (s : Service) : Prop where
  full : c.nsSize ≤ s.tables.ns.entries.length
  guards : ∃ memory, s.engine.nsPolicy = .liveness c.liveness memory ∧
    memory.capacity = max c.liveness.memory 1 ∧
    memory.Guards bound gone (c.liveness.scores s.tables.ns.entries)

/-- A request made a turnover of the neighborhood set, which is guarded
    afterwards against those that left it too. -/
structure Service.TurnsOver (c : Config) (bound gone : Finset UInt64) (s s' : Service) : Prop where
  guarded : s'.Guarded c bound (gone ∪ (s.tables.ns.missingFrom s'.tables.ns).toFinset)
  turnover : Turnover c.liveness.threshold (c.liveness.scores s.tables.ns.entries)
    (c.liveness.scores s'.tables.ns.entries)

section
variable {bound gone : Finset UInt64} {s₁ s' : Service}

theorem Service.Guarded.of_scores (hg : s.Guarded c bound gone)
    (hscores : c.liveness.scores s'.tables.ns.entries = c.liveness.scores s.tables.ns.entries)
    (hpolicy : s'.engine.nsPolicy = s.engine.nsPolicy) : s'.Guarded c bound gone where
  full := by
    have hlength := congrArg List.length hscores
    rw [LivenessTunables.scores, LivenessTunables.scores, List.length_map,
      List.length_map] at hlength
    exact hg.full.trans_eq hlength.symm
  guards := by
    rw [hpolicy, hscores]
    exact hg.guards

/-- Nothing happens if the scores stay as they are. -/
theorem Service.Guarded.turnsOver (hg : s.Guarded c bound gone) (hpos : 0 < c.nsSize)
    (hw : s.tables.ns.WellFormed) (hw' : s'.tables.ns.WellFormed)
    (hscores : c.liveness.scores s'.tables.ns.entries = c.liveness.scores s.tables.ns.entries)
    (hpolicy : s'.engine.nsPolicy = s.engine.nsPolicy) : s.TurnsOver c bound gone s' where
  guarded := by
    rw [← SubTable.missingFrom_congr hw hw' hscores, hw'.missingFrom_self, Finset.union_empty]
    exact hg.of_scores hscores hpolicy
  turnover := by
    obtain ⟨memory, -, -, hguards⟩ := hg.guards
    rw [hscores]
    refine .refl ?_ hguards.numbers
    rw [LivenessTunables.scores, List.length_map]
    exact hpos.trans_le hg.full

/-- Only the scores before a turnover count. -/
theorem Service.TurnsOver.of_scores (ht : s₁.TurnsOver c bound gone s')
    (hw : s.tables.ns.WellFormed) (hw₁ : s₁.tables.ns.WellFormed)
    (hscores : c.liveness.scores s₁.tables.ns.entries = c.liveness.scores s.tables.ns.entries) :
    s.TurnsOver c bound gone s' where
  guarded := by
    rw [← SubTable.missingFrom_congr hw hw₁ hscores]
    exact ht.guarded
  turnover := hscores ▸ ht.turnover

theorem Reachable.nsSize_pos (h : Reachable key c self s) : 0 < c.nsSize :=
  Config.nsSize_pos_of_validate h.config_valid.1

/-- Moving a peer leaves the scores in the neighborhood set as they are. -/
theorem Reachable.scores_handle (h : Reachable key c self s) {tunables : LivenessTunables}
    {r : Request} (hr : r.peers = []) (hcalm : r.IsCalm) :
    tunables.scores (s.handle key r).1.tables.ns.entries =
      tunables.scores s.tables.ns.entries := by
  rw [(h.handle r).invariant.entries_ns, h.invariant.entries_ns]
  exact h.invariant.sameScores_handle hr hcalm .ns SlotRef.ns.index

variable (hroom : bound.card ≤ c.liveness.memory) (hsub : gone ⊆ bound)
  (hg : s.Guarded c bound gone)
include hroom hsub hg

/-- An offer makes a turnover of the neighborhood set. -/
theorem Reachable.turnsOver_offer (h : Reachable key c self s) {candidate : Candidate}
    (hnew : s.tables.ns.contains candidate.node.hash = false) {a : Admission}
    (hoffer : s.tables.ns.offer s.engine.nsPolicy candidate SlotRef.ns.index =
      (s'.tables.ns, s'.engine.nsPolicy, a))
    (hns' : s'.tables.ns.entries = s'.tables.ns.slot SlotRef.ns.index)
    (hmissing : (s.tables.ns.missingFrom s'.tables.ns).toFinset ⊆ bound) :
    s.TurnsOver c bound gone s' := by
  obtain ⟨hfull, memory, hpolicy, hcapacity, hguards⟩ := hg
  have hw : s.tables.ns.WellFormed := h.invariant.wellFormed .ns
  have hsize : s.tables.ns.capacity = c.nsSize := (h.invariant.grid .ns).capacity
  rw [hpolicy] at hoffer
  rw [h.invariant.entries_ns] at hfull hguards
  have hroom' : bound.card ≤ memory.capacity := hcapacity ▸ le_max_of_le_left hroom
  obtain ⟨memory', t', a', hoffer', hcapacity', hlength, hguards', hturn⟩ :=
    hw.guards_offer hnew (hsize ▸ h.nsSize_pos) (hsize ▸ hfull) hguards hsub hroom'
      (by rwa [hoffer])
  obtain ⟨ht', hrest⟩ := Prod.mk.inj (hoffer.symm.trans hoffer')
  obtain ⟨hpolicy', -⟩ := Prod.mk.inj hrest
  rw [← ht', ← hns'] at hlength hguards' hturn
  rw [← h.invariant.entries_ns] at hlength hturn hfull
  exact ⟨⟨hlength ▸ hfull, memory', hpolicy', hcapacity'.trans hcapacity, hguards'⟩, hturn⟩

/-- **A peer that is seen** makes a turnover of the neighborhood set. -/
theorem Reachable.turnsOver_notify (h : Reachable key c self s) (id : Identifier)
    (address : Address) (hmissing : (s.tables.ns.missingFrom
      (s.handle key (.notify id address)).1.tables.ns).toFinset ⊆ bound) :
    s.TurnsOver c bound gone (s.handle key (.notify id address)).1 := by
  have hw : s.tables.ns.WellFormed := h.invariant.wellFormed .ns
  have hinv' := (h.handle (.notify id address)).invariant
  have hw' : (s.handle key (.notify id address)).1.tables.ns.WellFormed := hinv'.wellFormed .ns
  obtain ⟨reason, -, hsame⟩ | ⟨-, -, -, standing, e₀, -, he₀, -, hsame⟩ :=
    s.engine.notify_cases (.keyed key id address) s.now
  · refine hg.turnsOver h.nsSize_pos hw hw' ?_ hsame.nsPolicy
    exact congrArg (fun t => c.liveness.scores t.ns.entries) hsame.tables
  -- the peer is placed after its entries were moved
  have hmoved := h.handle (.updateAddress id address)
  have hscores : c.liveness.scores (s.handle key (.updateAddress id address)).1.tables.ns.entries =
      c.liveness.scores s.tables.ns.entries := h.scores_handle rfl trivial
  have hpolicy : (s.handle key (.updateAddress id address)).1.engine.nsPolicy =
      s.engine.nsPolicy := rfl
  have hns' := (congrArg (·.get .ns) hsame.tables).trans
    (e₀.ns_place (.keyed key id address) standing s.now)
  have hpolicy' := hsame.nsPolicy.trans
    (e₀.places_place (.keyed key id address) standing s.now).ns_offer.2
  have hcases := e₀.placeNs_cases ⟨.keyed key id address, e₀.self.id, standing.distance, s.now⟩
  rw [← hns', ← hpolicy', he₀.tables, he₀.nsPolicy] at hcases
  rcases hcases with ⟨htable, hkeep, -⟩ | ⟨hnew, a, hoffer, -⟩
  · refine hg.turnsOver h.nsSize_pos hw hw' ?_ hkeep
    rw [← hscores]
    exact congrArg (fun t => c.liveness.scores t.entries) htable
  · have hw₁ : (s.handle key (.updateAddress id address)).1.tables.ns.WellFormed :=
      hmoved.invariant.wellFormed .ns
    rw [← SubTable.missingFrom_congr hw hw₁ hscores] at hmissing
    have hturn : (s.handle key (.updateAddress id address)).1.TurnsOver c bound gone
        (s.handle key (.notify id address)).1 :=
      hmoved.turnsOver_offer hroom hsub (hg.of_scores hscores hpolicy) hnew hoffer
        hinv'.entries_ns hmissing
    exact hturn.of_scores hw hw₁ hscores

/-- **A calm request** makes a turnover of the neighborhood set. -/
theorem Reachable.turnsOver_handle (h : Reachable key c self s) {r : Request} (hcalm : r.IsCalm)
    (hmissing : (s.tables.ns.missingFrom (s.handle key r).1.tables.ns).toFinset ⊆ bound) :
    s.TurnsOver c bound gone (s.handle key r).1 := by
  by_cases hr : r.peers = []
  · refine hg.turnsOver h.nsSize_pos (h.invariant.wellFormed .ns)
      ((h.handle r).invariant.wellFormed .ns) (h.scores_handle hr hcalm) ?_
    rw [s.engine_handle hr]
  · cases r with
    | notify id address => exact h.turnsOver_notify hroom hsub hg id address hmissing
    | recoveryReply => exact hcalm.elim
    | _ => exact absurd rfl hr

end

/-! ## Runs -/

/-- The scores that a policy remembers. -/
def Policy.remembered : Policy → List (UInt64 × Binary64)
  | liveness _ memory => memory.items
  | _ => []

namespace Service

/-- The peers that leave the neighborhood set in a run. -/
def departed (key : Identifier → UInt64) (s : Service) : List Request → Finset UInt64
  | [] => ∅
  | r :: rs => (s.tables.ns.missingFrom (s.handle key r).1.tables.ns).toFinset ∪
      (s.handle key r).1.departed key rs

theorem departed_append (key : Identifier → UInt64) (s : Service) (rs rs' : List Request) :
    s.departed key (rs ++ rs') = s.departed key rs ∪ (s.run key rs).departed key rs' := by
  induction rs generalizing s with
  | nil => exact (Finset.empty_union _).symm
  | cons r rs ih =>
    rw [List.cons_append, departed, departed, ih, Finset.union_assoc]
    rfl

theorem departed_concat (key : Identifier → UInt64) (s : Service) (rs : List Request)
    (r : Request) : s.departed key (rs ++ [r]) = s.departed key rs ∪
      ((s.run key rs).tables.ns.missingFrom (s.run key (rs ++ [r])).tables.ns).toFinset := by
  rw [departed_append, departed, departed, Finset.union_empty, run_concat]

end Service

section
variable {bound : Finset UInt64} (hroom : bound.card ≤ c.liveness.memory) {rs : List Request}
include hroom

/-- **One more request** of a calm run. -/
theorem Reachable.turnsOver_concat (h : Reachable key c self s)
    (hg : (s.run key rs).Guarded c bound (s.departed key rs)) {r : Request} (hcalm : r.IsCalm)
    (hbound : s.departed key (rs ++ [r]) ⊆ bound) :
    (s.run key rs).TurnsOver c bound (s.departed key rs) (s.run key (rs ++ [r])) := by
  rw [s.departed_concat, Finset.union_subset_iff] at hbound
  rw [Service.run_concat] at hbound ⊢
  exact (h.run rs).turnsOver_handle hroom hbound.1 hg hcalm hbound.2

/-- **A calm run** keeps the neighborhood set guarded against the peers that
    left it. -/
theorem Reachable.guarded_run (h : Reachable key c self s) (hg : s.Guarded c bound ∅)
    (hcalm : ∀ r ∈ rs, r.IsCalm) (hbound : s.departed key rs ⊆ bound) :
    (s.run key rs).Guarded c bound (s.departed key rs) := by
  induction rs using List.reverseRecOn with
  | nil => exact hg
  | append_singleton rs r ih =>
    have hsub : s.departed key rs ⊆ bound := by
      rw [s.departed_append] at hbound
      exact Finset.union_subset_left hbound
    have hbefore := ih (fun r hr => hcalm r (List.mem_append_left _ hr)) hsub
    rw [s.departed_concat]
    exact (h.turnsOver_concat hroom hbefore (hcalm r (by simp)) hbound).guarded

end

/-- **Dead peers stay out of a full neighborhood set**: along a calm run in
    which no more peers leave the set than the policy remembers, the lowest
    score of the members does not fall, only members of the lowest score leave,
    if that is at most the threshold, and none of them is a member again. -/
theorem Reachable.departed_stay_out (h : Reachable key c self s)
    (hns : c.nsPolicy = .liveness) (hmemory : s.engine.nsPolicy.remembered = [])
    (hfull : s.tables.ns.entries.length = c.nsSize)
    (hnumbers : ∀ e ∈ s.tables.ns.entries, (e.liveness c.liveness).isNaN = false)
    {rs : List Request} (hcalm : ∀ r ∈ rs, r.IsCalm)
    (hroom : (s.departed key rs).card ≤ c.liveness.memory) :
    ∀ before r after, rs = before ++ r :: after →
      Turnover c.liveness.threshold
        (c.liveness.scores (s.run key before).tables.ns.entries)
        (c.liveness.scores (s.run key (before ++ [r])).tables.ns.entries) ∧
      ∀ e ∈ (s.run key (before ++ [r])).tables.ns.entries,
        e.hash ∉ s.departed key (before ++ [r]) := by
  rintro before r after rfl
  have hstart : s.Guarded c (s.departed key (before ++ r :: after)) ∅ := by
    obtain ⟨memory, hpolicy, hcapacity⟩ := h.nsPolicy_isLiveness hns
    rw [hpolicy] at hmemory
    refine ⟨hfull.ge, memory, hpolicy, hcapacity, LivenessMemory.guards_of_items hmemory ?_⟩
    intro p hp
    obtain ⟨e, he, rfl⟩ := List.mem_map.1 hp
    exact hnumbers e he
  have hbefore : s.departed key before ⊆ s.departed key (before ++ r :: after) := by
    rw [s.departed_append]
    exact Finset.subset_union_left
  have hupTo : s.departed key (before ++ [r]) ⊆ s.departed key (before ++ r :: after) := by
    rw [List.append_cons before r after, s.departed_append key (before ++ [r])]
    exact Finset.subset_union_left
  have hguarded := h.guarded_run hroom hstart
    (fun r' hr' => hcalm r' (List.mem_append_left _ hr')) hbefore
  have hstep := h.turnsOver_concat hroom hguarded (hcalm r (by simp)) hupTo
  obtain ⟨memory, -, -, hguards⟩ := hstep.guarded.guards
  rw [← s.departed_concat] at hguards
  exact ⟨hstep.turnover, fun e he => hguards.away _ (List.mem_map_of_mem he)⟩

/-- A dead peer that is seen again does not come back. -/
theorem departed_stay_out_flappingPeer : ∃ (s : Service) (dead live : Identifier),
    let rs : List Request := [.notify live "10.0.0.3:7000", .notify dead "10.0.0.2:7000"]
    Reachable Identifier.hash { Config.small with nsSize := 1, nsPolicy := .liveness }
      (.zero (.mk 2 4)) s ∧
    s.departed Identifier.hash rs = {dead.hash} ∧
    Turnover 0.2
      (LivenessTunables.usual.scores (s.run Identifier.hash (rs.take 1)).tables.ns.entries)
      (LivenessTunables.usual.scores (s.run Identifier.hash rs).tables.ns.entries) ∧
    ∀ e ∈ (s.run Identifier.hash rs).tables.ns.entries, e.hash ≠ dead.hash := by
  have hstart : Reachable Identifier.hash
      { Config.small with nsSize := 1, nsPolicy := .liveness } (.zero (.mk 2 4)) _ :=
    Reachable.start rfl rfl "10.0.0.1:7000" (.ofSeed 7) (.ofMillis 0)
  let dead : Identifier := .ofFn (.mk 2 4) (· == 4)
  let live : Identifier := .ofFn (.mk 2 4) (· == 6)
  have hs := ((hstart.handle (.notify dead "10.0.0.2:7000")).handle
    (.recordMissedPong dead.hash)).handle (.recordMissedPong dead.hash)
  let rs : List Request := [.notify live "10.0.0.3:7000", .notify dead "10.0.0.2:7000"]
  have hcalm : ∀ r ∈ rs, r.IsCalm := by
    intro r hr
    rcases List.mem_pair.1 hr with rfl | rfl <;> trivial
  obtain ⟨hturn, haway⟩ := hs.departed_stay_out rfl (by decide +kernel) (by decide +kernel)
    (by decide +kernel) hcalm (by decide +kernel) [.notify live "10.0.0.3:7000"] _ [] rfl
  refine ⟨_, dead, live, hs, by decide +kernel, hturn, fun e he hh => haway e he ?_⟩
  rw [hh]
  decide +kernel

end CubeRouting
