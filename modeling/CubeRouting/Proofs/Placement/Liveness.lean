/-
  Scores of peers that are placed by a liveness policy.

  Whatever table takes a peer, the peer starts there with the score that the
  policy of the table remembers (`Engine.liveness_of_place`).  RT2 asks the
  policy after RT1 has; the score is the same if there is room for two scores.
-/
import CubeRouting.Proofs.Placement.Rules
import CubeRouting.Proofs.Policy.Liveness

namespace CubeRouting

variable {tunables : LivenessTunables} {memory : LivenessMemory} {candidate : Candidate} {x : Entry}

/-! ## One table -/

namespace Shelf

variable {s : Shelf} {kind : TableKind} {i : SlotIndex}
  (hp : s.policy = .liveness tunables memory) (hw : (s.tables.get kind).WellFormed)
include hp hw

theorem liveness_of_offer (hx : x ∈ ((s.offer kind i candidate).1.tables.get kind).entries) :
    x ∈ (s.tables.get kind).entries ∨
      x.liveness tunables = memory.startingScore tunables candidate.node.hash := by
  unfold offer at hx
  dsimp only at hx
  split at hx
  · exact Or.inl hx
  · rw [RoutingTable.get_set, if_pos rfl, hp] at hx
    exact hw.liveness_of_offer hx

/-- The peer starts with the same score after an offer. -/
theorem startingScore_offer (hroom : 1 < memory.capacity) :
    ∃ memory', (s.offer kind i candidate).1.policy = .liveness tunables memory' ∧
      memory'.startingScore tunables candidate.node.hash =
        memory.startingScore tunables candidate.node.hash := by
  unfold offer
  dsimp only
  split
  · exact ⟨memory, hp, rfl⟩
  · rename_i hnew
    have hstored : ∀ m ∈ (s.tables.get kind).slot i, m.hash ≠ candidate.node.hash :=
      fun m hm hh => hnew (hw.contains_iff.2 ⟨m, SubTable.mem_entries.2 ⟨i, hm⟩, hh⟩)
    rw [hp]
    exact ⟨_, rfl, Offer.startingScore_livenessDecision
      (o := (s.tables.get kind).offerOf candidate i) hroom fun _ => hstored⟩

end Shelf

/-! ## A pair of tables -/

namespace TablePair

variable {pair : TablePair} {leaveToRt2 : Bool} {cells : Cells} {s : Shelf} {first : Placement}
  (hp : s.policy = .liveness tunables memory)
include hp

theorem liveness_of_placeRt1 (hw : (s.tables.get pair.rt1).WellFormed)
    (hx : x ∈ ((pair.placeRt1 leaveToRt2 cells candidate s).1.tables.get pair.rt1).entries) :
    x ∈ (s.tables.get pair.rt1).entries ∨
      x.liveness tunables = memory.startingScore tunables candidate.node.hash := by
  unfold placeRt1 at hx
  split at hx
  · exact Or.inl hx
  split at hx
  · exact Or.inl hx
  split at hx
  · exact Or.inl hx
  split at hx
  · exact Or.inl hx
  · exact Shelf.liveness_of_offer hp hw hx

theorem startingScore_placeRt1 (hw : (s.tables.get pair.rt1).WellFormed)
    (hroom : 1 < memory.capacity) (leaveToRt2 : Bool) (cells : Cells) (candidate : Candidate) :
    ∃ memory', (pair.placeRt1 leaveToRt2 cells candidate s).1.policy = .liveness tunables memory' ∧
      memory'.startingScore tunables candidate.node.hash =
        memory.startingScore tunables candidate.node.hash := by
  unfold placeRt1
  split
  · exact ⟨memory, hp, rfl⟩
  split
  · exact ⟨memory, hp, rfl⟩
  split
  · exact ⟨memory, hp, rfl⟩
  split
  · exact ⟨memory, hp, rfl⟩
  · exact Shelf.startingScore_offer hp hw hroom

theorem liveness_of_placeRt2 (hw : (s.tables.get pair.rt2).WellFormed)
    (hx : x ∈ ((pair.placeRt2 cells candidate first s).1.tables.get pair.rt2).entries) :
    x ∈ (s.tables.get pair.rt2).entries ∨
      x.liveness tunables = memory.startingScore tunables candidate.node.hash := by
  unfold placeRt2 at hx
  split at hx
  · exact Or.inl hx
  split at hx
  · exact Or.inl hx
  split at hx
  · exact Shelf.liveness_of_offer hp hw hx
  · exact Or.inl hx

variable (pair) (hne : pair.rt1 ≠ pair.rt2)
include hne

theorem liveness_of_place_rt1 (hw : (s.tables.get pair.rt1).WellFormed)
    (hx : x ∈ ((pair.place leaveToRt2 cells candidate s).1.tables.get pair.rt1).entries) :
    x ∈ (s.tables.get pair.rt1).entries ∨
      x.liveness tunables = memory.startingScore tunables candidate.node.hash := by
  unfold place at hx
  dsimp only at hx
  rw [placeRt2_other hne] at hx
  exact liveness_of_placeRt1 hp hw hx

/-- RT2 gives the score that RT1 would have given. -/
theorem liveness_of_place_rt2 (hw : ∀ kind ∈ [pair.rt1, pair.rt2], (s.tables.get kind).WellFormed)
    (hroom : 1 < memory.capacity)
    (hx : x ∈ ((pair.place leaveToRt2 cells candidate s).1.tables.get pair.rt2).entries) :
    x ∈ (s.tables.get pair.rt2).entries ∨
      x.liveness tunables = memory.startingScore tunables candidate.node.hash := by
  have hw₂ := hw pair.rt2 (by simp)
  have hother : (pair.placeRt1 leaveToRt2 cells candidate s).1.tables.get pair.rt2 =
      s.tables.get pair.rt2 := placeRt1_other hne.symm
  obtain ⟨memory', hp', hscore⟩ :=
    startingScore_placeRt1 hp (hw pair.rt1 (by simp)) hroom leaveToRt2 cells candidate
  unfold place at hx
  dsimp only at hx
  rw [← hother] at hw₂ ⊢
  rw [← hscore]
  exact liveness_of_placeRt2 hp' hw₂ hx

end TablePair

/-! ## All tables -/

namespace Engine

variable {e : Engine}

/-- The policy that fills a table. -/
def policyOf (e : Engine) : TableKind → Option Policy
  | .ns => some e.nsPolicy
  | .rt1 | .rt2 => some e.rtPolicy
  | .secRt1 | .secRt2 => e.securePolicy

theorem liveness_of_placeNs (hw : (e.tables.get .ns).WellFormed)
    (hp : e.nsPolicy = .liveness tunables memory)
    (hx : x ∈ ((e.placeNs candidate).1.tables.get .ns).entries) :
    x ∈ (e.tables.get .ns).entries ∨
      x.liveness tunables = memory.startingScore tunables candidate.node.hash := by
  unfold placeNs at hx
  split at hx
  · exact Shelf.liveness_of_offer (s := ⟨e.tables, e.nsPolicy⟩) hp hw hx
  · exact Or.inl hx

theorem liveness_of_placePrimary
    (hw : ∀ kind ∈ [TableKind.rt1, .rt2], (e.tables.get kind).WellFormed)
    (hp : e.rtPolicy = .liveness tunables memory) {cells : Option Cells} {kind : TableKind}
    (hkind : kind ∈ [TableKind.rt1, .rt2]) (hroom : kind = .rt2 → 1 < memory.capacity)
    (hx : x ∈ ((e.placePrimary cells candidate).1.tables.get kind).entries) :
    x ∈ (e.tables.get kind).entries ∨
      x.liveness tunables = memory.startingScore tunables candidate.node.hash := by
  cases cells with
  | none => exact Or.inl hx
  | some cells =>
    rcases List.mem_pair.1 hkind with rfl | rfl
    · exact (TablePair.primary e.config).liveness_of_place_rt1 (s := ⟨e.tables, e.rtPolicy⟩) hp
        TableKind.noConfusion (hw .rt1 hkind) hx
    · exact (TablePair.primary e.config).liveness_of_place_rt2 (s := ⟨e.tables, e.rtPolicy⟩) hp
        TableKind.noConfusion hw (hroom rfl) hx

/-- **The score of a peer that is placed** is the one that the policy of the
    table starts it with. -/
theorem liveness_of_place (hw : ∀ kind, (e.tables.get kind).WellFormed) {kind : TableKind}
    (hkind : kind ∈ [TableKind.ns, .rt1, .rt2])
    (hp : e.policyOf kind = some (.liveness tunables memory))
    (hroom : kind = .rt2 → 1 < memory.capacity) {peer : NodeRecord} {standing : Standing}
    {time : Timestamp} (hx : x ∈ ((e.place peer standing time).1.tables.get kind).entries) :
    x ∈ (e.tables.get kind).entries ∨
      x.liveness tunables = memory.startingScore tunables peer.hash := by
  rcases List.mem_cons.1 hkind with rfl | hkind
  · rw [ns_place] at hx
    exact liveness_of_placeNs (hw .ns) (Option.some.inj hp) hx
  -- RT1 and RT2 come after the neighborhood set, which they do not see
  have hne : ∀ kind ∈ [TableKind.rt1, .rt2], kind ≠ .ns ∧ kind ≠ .secRt1 ∧ kind ≠ .secRt2 := by
    decide
  obtain ⟨hns, hsec₁, hsec₂⟩ := hne kind hkind
  have hpolicy : e.rtPolicy = .liveness tunables memory := by
    rcases List.mem_pair.1 hkind with rfl | rfl <;> exact Option.some.inj hp
  rw [routing_place e peer standing time hsec₁ hsec₂] at hx
  have hscore := liveness_of_placePrimary (fun kind hk => ?_) ((rtPolicy_placeNs ..).trans hpolicy)
    hkind hroom hx
  · rwa [placeNs_other hns] at hscore
  · rw [placeNs_other (hne kind hk).1]
    exact hw kind

end Engine

end CubeRouting
