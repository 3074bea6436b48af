/-
  What a notification does.

  `Placed` is the effect of one placement on its table, `TablePair.Places` the
  effect on a pair of tables with the rules of the pair, and `Engine.Places`
  the effect on all tables.

  * `notify_cases`: a notification is skipped and changes nothing that counts
    for placement, or the address of the peer is updated and it is placed;
  * `notify_processed`, `notify_skipped`: what changes in either case.
-/
import CubeRouting.Placement.Engine
import CubeRouting.Proofs.Identifier.Bits
import CubeRouting.Proofs.Table.Evolution

namespace CubeRouting

/-! ## One table -/

/-- The table had the peer already, or the peer was offered to a slot of it. -/
def Placement.reaches : Placement → Bool
  | alreadyPresent | considered .. => true
  | disabled | excluded | notAdjacent => false

/-- The effect of a placement on its table. -/
inductive Placed (t : SubTable) (candidate : Candidate) : Placement → SubTable → Prop where
  | disabled : Placed t candidate .disabled t
  | stored : t.contains candidate.node.hash = true → Placed t candidate .alreadyPresent t
  | barred {p : Placement} : p = .excluded ∨ p = .notAdjacent →
      t.contains candidate.node.hash = false → Placed t candidate p t
  | offered (policy : Policy) (i : SlotIndex) : t.contains candidate.node.hash = false →
      Placed t candidate (.considered i (t.offer policy candidate i).2.2)
        (t.offer policy candidate i).1

namespace Placed

variable {t t' : SubTable} {candidate : Candidate} {p : Placement}
  {allowed : Candidate → SlotIndex → Prop}

theorem evolves (h : Placed t candidate p t')
    (hp : ∀ i a, p = .considered i a → allowed candidate i) : t.Evolves allowed t' := by
  cases h with
  | offered policy i => exact (SubTable.Step.offer policy (hp _ _ rfl)).evolves
  | _ => exact SubTable.Evolves.refl t

/-- The entries after a placement were there before, or the candidate was
    admitted. -/
theorem mem_entries (h : Placed t candidate p t') (hw : t.WellFormed) {e : Entry}
    (he : e ∈ t'.entries) :
    e ∈ t.entries ∨ ∃ i a, p = .considered i a ∧ a.isAdmitted = true ∧
      e.Continues (t.entryOf candidate i) := by
  cases h with
  | offered policy i =>
    rcases hw.mem_offer policy he with he | ⟨ha, hc⟩
    · exact Or.inl he
    · exact Or.inr ⟨i, _, rfl, ha, hc⟩
  | _ => exact Or.inl he

theorem exists_admitted (h : Placed t candidate p t') (hw : t.WellFormed) {i : SlotIndex}
    {a : Admission} (hp : p = .considered i a) (ha : a.isAdmitted = true) :
    ∃ e ∈ t'.entries, e.Continues (t.entryOf candidate i) := by
  cases h with
  | offered policy j =>
    cases hp
    exact hw.admitted_offer policy ha
  | barred hbar => rcases hbar with rfl | rfl <;> cases hp
  | _ => cases hp

/-- A table that has the peer is left alone. -/
theorem eq_of_contains (h : Placed t candidate p t')
    (hc : t.contains candidate.node.hash = true) : t' = t := by
  cases h with
  | offered policy i hnew =>
    rw [hnew] at hc
    cases hc
  | _ => rfl

end Placed

theorem Shelf.offer_placed (s : Shelf) (kind : TableKind) (i : SlotIndex) (candidate : Candidate) :
    Placed (s.tables.get kind) candidate (s.offer kind i candidate).2
      ((s.offer kind i candidate).1.tables.get kind) := by
  unfold Shelf.offer
  dsimp only
  split
  · rename_i hstored
    exact .stored hstored
  · rename_i hnew
    rw [RoutingTable.get_set, if_pos rfl]
    exact .offered s.policy i (by simpa using hnew)

theorem Shelf.offer_reaches (s : Shelf) (kind : TableKind) (i : SlotIndex)
    (candidate : Candidate) : (s.offer kind i candidate).2.reaches = true := by
  unfold Shelf.offer
  dsimp only
  split <;> rfl

theorem Shelf.offer_slot {s : Shelf} {kind : TableKind} {i j : SlotIndex} {candidate : Candidate}
    {a : Admission} (h : (s.offer kind i candidate).2 = .considered j a) : j = i := by
  unfold Shelf.offer at h
  dsimp only at h
  split at h
  · cases h
  · exact (Placement.considered.inj h).1.symm

theorem Shelf.offer_other (s : Shelf) {kind other : TableKind} (i : SlotIndex)
    (candidate : Candidate) (hne : other ≠ kind) :
    (s.offer kind i candidate).1.tables.get other = s.tables.get other := by
  unfold Shelf.offer
  dsimp only
  split
  · rfl
  · rw [RoutingTable.get_set, if_neg hne]

/-! ## A pair of tables -/

namespace TablePair

/-- The effect of a placement on a pair of tables. -/
structure Places (pair : TablePair) (leaveToRt2 : Bool) (cells : Option Cells)
    (candidate : Candidate) (before after : RoutingTable) (first second : Placement) : Prop where
  rt1 : Placed (before.get pair.rt1) candidate first (after.get pair.rt1)
  rt2 : Placed (before.get pair.rt2) candidate second (after.get pair.rt2)
  /-- When the first table considers the candidate. -/
  rt1_considered : ∀ i a, first = .considered i a → ∃ c ∈ cells, i = c.rt1 ∧
    (pair.useRt1 = true ∨ pair.useRt2 = true ∧ c.sibling = true) ∧
    (leaveToRt2 = true → c.rt2Below = none)
  /-- When the second table does. -/
  rt2_considered : ∀ i a, second = .considered i a → pair.useRt2 = true ∧
    ∃ c ∈ cells, (if first.holdsPeer then c.rt2Below else c.rt2) = some i
  rt1_stored : cells.isSome = true → (pair.useRt1 || pair.useRt2) = true →
    (before.get pair.rt1).contains candidate.node.hash = true → first = .alreadyPresent
  rt1_reaches : ∀ c ∈ cells, (first.reaches = true ↔ (pair.useRt1 || pair.useRt2) = true ∧
    ((before.get pair.rt1).contains candidate.node.hash = true ∨
      (pair.useRt1 || c.sibling) = true ∧ (leaveToRt2 = true → c.rt2Below = none)))
  rt2_reaches : ∀ c ∈ cells, (second.reaches = true ↔ pair.useRt2 = true ∧
    ((before.get pair.rt2).contains candidate.node.hash = true ∨
      (if first.holdsPeer then c.rt2Below else c.rt2).isSome = true))
  rt1_disabled : first = .disabled → cells = none ∨ pair.useRt1 = false ∧ pair.useRt2 = false
  rt2_disabled : second = .disabled → cells = none ∨ pair.useRt2 = false

variable {pair : TablePair} {leaveToRt2 : Bool} {cells : Cells} {candidate : Candidate} {s : Shelf}

theorem placeRt1_placed :
    Placed (s.tables.get pair.rt1) candidate (pair.placeRt1 leaveToRt2 cells candidate s).2
      ((pair.placeRt1 leaveToRt2 cells candidate s).1.tables.get pair.rt1) := by
  unfold placeRt1
  split
  · exact .disabled
  split
  · rename_i hstored
    exact .stored hstored
  rename_i hnew
  rw [Bool.not_eq_true] at hnew
  split
  · exact .barred (Or.inl rfl) hnew
  split
  · exact .barred (Or.inl rfl) hnew
  · exact s.offer_placed ..

theorem placeRt1_considered {i : SlotIndex} {a : Admission}
    (h : (pair.placeRt1 leaveToRt2 cells candidate s).2 = .considered i a) : i = cells.rt1 ∧
      (pair.useRt1 = true ∨ pair.useRt2 = true ∧ cells.sibling = true) ∧
      (leaveToRt2 = true → cells.rt2Below = none) := by
  unfold placeRt1 at h
  split at h
  · cases h
  split at h
  · cases h
  split at h
  · cases h
  split at h
  · cases h
  rename_i huse _ hsibling hleave
  refine ⟨Shelf.offer_slot h, ?_, fun hl => ?_⟩
  · revert huse hsibling
    cases pair.useRt1 <;> cases pair.useRt2 <;> simp
  · simpa [hl] using hleave

theorem placeRt1_stored (huse : (pair.useRt1 || pair.useRt2) = true)
    (h : (s.tables.get pair.rt1).contains candidate.node.hash = true) :
    (pair.placeRt1 leaveToRt2 cells candidate s).2 = .alreadyPresent := by
  unfold placeRt1
  rw [if_neg (by simp [huse]), if_pos h]

theorem placeRt1_reaches :
    (pair.placeRt1 leaveToRt2 cells candidate s).2.reaches = true ↔
      (pair.useRt1 || pair.useRt2) = true ∧
      ((s.tables.get pair.rt1).contains candidate.node.hash = true ∨
        (pair.useRt1 || cells.sibling) = true ∧ (leaveToRt2 = true → cells.rt2Below = none)) := by
  unfold placeRt1
  split
  · rename_i hoff
    refine iff_of_false Bool.false_ne_true fun h => ?_
    rw [h.1] at hoff
    cases hoff
  rename_i hon
  rw [Bool.not_eq_true, Bool.not_eq_false'] at hon
  split
  · rename_i hstored
    exact iff_of_true rfl ⟨hon, Or.inl hstored⟩
  rename_i hnew
  split
  · rename_i hsibling
    refine iff_of_false Bool.false_ne_true fun h => ?_
    have hor := (h.2.resolve_left hnew).1
    revert hsibling hor
    cases pair.useRt1 <;> cases cells.sibling <;> simp
  rename_i hsibling
  split
  · rename_i hleave
    rw [Bool.and_eq_true] at hleave
    refine iff_of_false Bool.false_ne_true fun h => ?_
    rw [(h.2.resolve_left hnew).2 hleave.1] at hleave
    cases hleave.2
  · rename_i hleave
    refine iff_of_true (s.offer_reaches ..) ⟨hon, Or.inr ⟨?_, fun hl => ?_⟩⟩
    · revert hsibling
      cases pair.useRt1 <;> cases cells.sibling <;> simp
    · simpa [hl] using hleave

theorem placeRt1_disabled (h : (pair.placeRt1 leaveToRt2 cells candidate s).2 = .disabled) :
    pair.useRt1 = false ∧ pair.useRt2 = false := by
  by_cases hon : (pair.useRt1 || pair.useRt2) = true
  · exfalso
    unfold placeRt1 at h
    rw [if_neg (by simp [hon])] at h
    split at h
    · cases h
    split at h
    · cases h
    split at h
    · cases h
    · have hreach := s.offer_reaches pair.rt1 cells.rt1 candidate
      rw [h] at hreach
      cases hreach
  · simpa using hon

theorem placeRt1_other {kind : TableKind} (hne : kind ≠ pair.rt1) :
    (pair.placeRt1 leaveToRt2 cells candidate s).1.tables.get kind = s.tables.get kind := by
  unfold placeRt1
  split
  · rfl
  split
  · rfl
  split
  · rfl
  split
  · rfl
  · exact s.offer_other _ _ hne

variable {first : Placement}

theorem placeRt2_placed :
    Placed (s.tables.get pair.rt2) candidate (pair.placeRt2 cells candidate first s).2
      ((pair.placeRt2 cells candidate first s).1.tables.get pair.rt2) := by
  unfold placeRt2
  split
  · exact .disabled
  split
  · rename_i hstored
    exact .stored hstored
  rename_i hnew
  generalize (if first.holdsPeer then cells.rt2Below else cells.rt2) = cell
  cases cell with
  | none => exact .barred (Or.inr rfl) (by simpa using hnew)
  | some i => exact s.offer_placed ..

theorem placeRt2_considered {i : SlotIndex} {a : Admission}
    (h : (pair.placeRt2 cells candidate first s).2 = .considered i a) : pair.useRt2 = true ∧
      (if first.holdsPeer then cells.rt2Below else cells.rt2) = some i := by
  unfold placeRt2 at h
  split at h
  · cases h
  split at h
  · cases h
  rename_i huse _
  refine ⟨by simpa using huse, ?_⟩
  revert h
  generalize (if first.holdsPeer then cells.rt2Below else cells.rt2) = cell
  cases cell with
  | none => exact fun h => by cases h
  | some j => exact fun h => by rw [Shelf.offer_slot h]

theorem placeRt2_reaches :
    (pair.placeRt2 cells candidate first s).2.reaches = true ↔ pair.useRt2 = true ∧
      ((s.tables.get pair.rt2).contains candidate.node.hash = true ∨
        (if first.holdsPeer then cells.rt2Below else cells.rt2).isSome = true) := by
  unfold placeRt2
  split
  · rename_i hoff
    refine iff_of_false Bool.false_ne_true fun h => ?_
    rw [h.1] at hoff
    cases hoff
  rename_i hon
  rw [Bool.not_eq_true, Bool.not_eq_false'] at hon
  split
  · rename_i hstored
    exact iff_of_true rfl ⟨hon, Or.inl hstored⟩
  rename_i hnew
  generalize (if first.holdsPeer then cells.rt2Below else cells.rt2) = cell
  cases cell with
  | none =>
    refine iff_of_false Bool.false_ne_true fun h => ?_
    cases h.2.resolve_left hnew
  | some i => exact iff_of_true (s.offer_reaches ..) ⟨hon, Or.inr rfl⟩

theorem placeRt2_disabled (h : (pair.placeRt2 cells candidate first s).2 = .disabled) :
    pair.useRt2 = false := by
  by_cases hon : pair.useRt2 = true
  · exfalso
    unfold placeRt2 at h
    rw [if_neg (by simp [hon])] at h
    split at h
    · cases h
    revert h
    generalize (if first.holdsPeer then cells.rt2Below else cells.rt2) = cell
    cases cell with
    | none => exact fun h => by cases h
    | some i =>
      intro h
      have hreach := s.offer_reaches pair.rt2 i candidate
      rw [h] at hreach
      cases hreach
  · simpa using hon

theorem placeRt2_other {kind : TableKind} (hne : kind ≠ pair.rt2) :
    (pair.placeRt2 cells candidate first s).1.tables.get kind = s.tables.get kind := by
  unfold placeRt2
  split
  · rfl
  split
  · rfl
  generalize (if first.holdsPeer then cells.rt2Below else cells.rt2) = cell
  cases cell with
  | none => rfl
  | some i => exact s.offer_other _ _ hne

variable (pair leaveToRt2 cells candidate s)

/-- **A pair of tables takes a candidate by its rules.** -/
theorem places_place (hne : pair.rt1 ≠ pair.rt2) :
    pair.Places leaveToRt2 (some cells) candidate s.tables
      (pair.place leaveToRt2 cells candidate s).1.tables
      (pair.place leaveToRt2 cells candidate s).2.1
      (pair.place leaveToRt2 cells candidate s).2.2 := by
  unfold place
  dsimp only
  constructor
  case rt1 =>
    rw [placeRt2_other hne]
    exact placeRt1_placed
  case rt2 =>
    have hbefore : (pair.placeRt1 leaveToRt2 cells candidate s).1.tables.get pair.rt2 =
        s.tables.get pair.rt2 := placeRt1_other hne.symm
    rw [← hbefore]
    exact placeRt2_placed
  case rt1_considered => exact fun i a h => ⟨cells, rfl, placeRt1_considered h⟩
  case rt2_considered =>
    intro i a h
    obtain ⟨huse, hi⟩ := placeRt2_considered h
    exact ⟨huse, cells, rfl, hi⟩
  case rt1_stored => exact fun _ huse h => placeRt1_stored huse h
  case rt1_reaches =>
    rintro c ⟨⟩
    exact placeRt1_reaches
  case rt2_reaches =>
    rintro c ⟨⟩
    rw [placeRt2_reaches, placeRt1_other hne.symm]
  case rt1_disabled => exact fun h => Or.inr (placeRt1_disabled h)
  case rt2_disabled => exact fun h => Or.inr (placeRt2_disabled h)

theorem place_other {kind : TableKind} (h₁ : kind ≠ pair.rt1) (h₂ : kind ≠ pair.rt2) :
    (pair.place leaveToRt2 cells candidate s).1.tables.get kind = s.tables.get kind := by
  unfold place
  dsimp only
  rw [placeRt2_other h₂, placeRt1_other h₁]

/-- The placement in a pair that is not in use. -/
theorem places_disabled (pair : TablePair) (leaveToRt2 : Bool) (candidate : Candidate)
    (t : RoutingTable) : pair.Places leaveToRt2 none candidate t t .disabled .disabled where
  rt1 := .disabled
  rt2 := .disabled
  rt1_considered _ _ h := by cases h
  rt2_considered _ _ h := by cases h
  rt1_stored h := by cases h
  rt1_reaches _ hc := by cases hc
  rt2_reaches _ hc := by cases hc
  rt1_disabled _ := Or.inl rfl
  rt2_disabled _ := Or.inl rfl

variable {pair : TablePair} {leaveToRt2 : Bool} {cells : Option Cells} {candidate : Candidate}
  {before before' after after' : RoutingTable} {first second : Placement}

/-- Only the two tables of the pair count. -/
theorem Places.congr (h : pair.Places leaveToRt2 cells candidate before after first second)
    (hb₁ : before'.get pair.rt1 = before.get pair.rt1)
    (hb₂ : before'.get pair.rt2 = before.get pair.rt2)
    (ha₁ : after'.get pair.rt1 = after.get pair.rt1)
    (ha₂ : after'.get pair.rt2 = after.get pair.rt2) :
    pair.Places leaveToRt2 cells candidate before' after' first second where
  rt1 := by rw [hb₁, ha₁]; exact h.rt1
  rt2 := by rw [hb₂, ha₂]; exact h.rt2
  rt1_considered := h.rt1_considered
  rt2_considered := h.rt2_considered
  rt1_stored := by rw [hb₁]; exact h.rt1_stored
  rt1_reaches := by rw [hb₁]; exact h.rt1_reaches
  rt2_reaches := by rw [hb₂]; exact h.rt2_reaches
  rt1_disabled := h.rt1_disabled
  rt2_disabled := h.rt2_disabled

end TablePair

/-! ## All tables -/

namespace Engine

variable {e e' : Engine} {candidate : Candidate} {cells : Option Cells}

/-- What no placement changes. -/
structure Keeps (e' e : Engine) : Prop where
  self : e'.self = e.self
  config : e'.config = e.config
  secure : e'.securePolicy.isSome = e.securePolicy.isSome

theorem Keeps.refl (e : Engine) : e.Keeps e := ⟨rfl, rfl, rfl⟩

theorem Keeps.trans {a b c : Engine} (h : a.Keeps b) (h' : b.Keeps c) : a.Keeps c :=
  ⟨h.self.trans h'.self, h.config.trans h'.config, h.secure.trans h'.secure⟩

theorem keeps_placeNs (e : Engine) (candidate : Candidate) :
    (e.placeNs candidate).1.Keeps e := by
  unfold placeNs
  split <;> exact ⟨rfl, rfl, rfl⟩

theorem placeNs_placed (e : Engine) (candidate : Candidate) :
    Placed (e.tables.get .ns) candidate (e.placeNs candidate).2
      ((e.placeNs candidate).1.tables.get .ns) := by
  unfold placeNs
  split
  · exact Shelf.offer_placed ⟨e.tables, e.nsPolicy⟩ ..
  · exact .disabled

/-- The neighborhood set stays as it is, or the peer is offered to it. -/
theorem placeNs_cases (e : Engine) (candidate : Candidate) :
    ((e.placeNs candidate).1.tables.get .ns = e.tables.get .ns ∧
      (e.placeNs candidate).1.nsPolicy = e.nsPolicy ∧
      (e.placeNs candidate).2.isAdmitted = false) ∨
    (e.tables.get .ns).contains candidate.node.hash = false ∧
      ∃ a, (e.tables.get .ns).offer e.nsPolicy candidate SlotRef.ns.index =
          ((e.placeNs candidate).1.tables.get .ns, (e.placeNs candidate).1.nsPolicy, a) ∧
        (e.placeNs candidate).2 = .considered SlotRef.ns.index a := by
  unfold placeNs
  split
  · unfold Shelf.offer
    dsimp only
    split
    · exact Or.inl ⟨rfl, rfl, rfl⟩
    · rename_i hnew
      exact Or.inr ⟨by simpa using hnew, _, rfl, rfl⟩
  · exact Or.inl ⟨rfl, rfl, rfl⟩

theorem placeNs_considered {i : SlotIndex} {a : Admission}
    (h : (e.placeNs candidate).2 = .considered i a) :
    e.config.useNs = true ∧ i = SlotRef.ns.index := by
  unfold placeNs at h
  split at h
  · rename_i huse
    exact ⟨huse, Shelf.offer_slot h⟩
  · cases h

theorem placeNs_disabled (h : (e.placeNs candidate).2 = .disabled) : e.config.useNs = false := by
  unfold placeNs at h
  split at h
  · have hreach := Shelf.offer_reaches ⟨e.tables, e.nsPolicy⟩ .ns SlotRef.ns.index candidate
    rw [h] at hreach
    cases hreach
  · rename_i huse
    simpa using huse

theorem placeNs_other {kind : TableKind} (hne : kind ≠ .ns) :
    (e.placeNs candidate).1.tables.get kind = e.tables.get kind := by
  unfold placeNs
  split
  · exact Shelf.offer_other ⟨e.tables, e.nsPolicy⟩ _ _ hne
  · rfl

theorem keeps_placePrimary (e : Engine) (cells : Option Cells) (candidate : Candidate) :
    (e.placePrimary cells candidate).1.Keeps e := by
  cases cells <;> exact ⟨rfl, rfl, rfl⟩

theorem places_placePrimary (e : Engine) (cells : Option Cells) (candidate : Candidate) :
    (TablePair.primary e.config).Places e.config.excludeRt2Scope cells candidate e.tables
      (e.placePrimary cells candidate).1.tables (e.placePrimary cells candidate).2.1
      (e.placePrimary cells candidate).2.2 := by
  cases cells with
  | none => exact TablePair.places_disabled ..
  | some cells =>
    exact TablePair.places_place _ _ cells candidate ⟨e.tables, e.rtPolicy⟩ TableKind.noConfusion

theorem placePrimary_other {kind : TableKind} (h₁ : kind ≠ .rt1) (h₂ : kind ≠ .rt2) :
    (e.placePrimary cells candidate).1.tables.get kind = e.tables.get kind := by
  cases cells with
  | none => rfl
  | some cells => exact TablePair.place_other _ _ cells candidate ⟨e.tables, e.rtPolicy⟩ h₁ h₂

theorem nsPolicy_placePrimary (e : Engine) (cells : Option Cells) (candidate : Candidate) :
    (e.placePrimary cells candidate).1.nsPolicy = e.nsPolicy := by
  cases cells <;> rfl

/-- The cells that the secure tables use. -/
def secureCells (e : Engine) (cells : Option Cells) : Option Cells :=
  if e.securePolicy.isSome then cells else none

theorem mem_secureCells {x : Cells} :
    x ∈ e.secureCells cells ↔ e.securePolicy.isSome = true ∧ x ∈ cells := by
  unfold secureCells
  split
  · rename_i huse
    exact ⟨fun hx => ⟨huse, hx⟩, fun hx => hx.2⟩
  · rename_i hno
    exact iff_of_false (fun hx => by cases hx) fun hx => hno hx.1

theorem keeps_placeSecure (e : Engine) (cells : Option Cells) (candidate : Candidate) :
    (e.placeSecure cells candidate).1.Keeps e := by
  unfold placeSecure
  split
  · rename_i hpolicy
    refine ⟨rfl, rfl, ?_⟩
    rw [hpolicy]
    rfl
  · exact Keeps.refl e

theorem places_placeSecure (e : Engine) (cells : Option Cells) (candidate : Candidate) :
    TablePair.secure.Places e.config.excludeRt2Scope (e.secureCells cells) candidate e.tables
      (e.placeSecure cells candidate).1.tables (e.placeSecure cells candidate).2.1
      (e.placeSecure cells candidate).2.2 := by
  unfold placeSecure secureCells
  cases e.securePolicy with
  | none => cases cells <;> exact TablePair.places_disabled ..
  | some policy =>
    cases cells with
    | none => exact TablePair.places_disabled ..
    | some cells =>
      exact TablePair.places_place _ _ cells candidate ⟨e.tables, policy⟩ TableKind.noConfusion

theorem placeSecure_other {kind : TableKind} (h₁ : kind ≠ .secRt1) (h₂ : kind ≠ .secRt2) :
    (e.placeSecure cells candidate).1.tables.get kind = e.tables.get kind := by
  unfold placeSecure
  split
  · rename_i cells policy hpolicy
    exact TablePair.place_other _ _ cells candidate ⟨e.tables, policy⟩ h₁ h₂
  · rfl

theorem nsPolicy_placeSecure (e : Engine) (cells : Option Cells) (candidate : Candidate) :
    (e.placeSecure cells candidate).1.nsPolicy = e.nsPolicy := by
  unfold placeSecure
  split <;> rfl

/-- The three steps of a placement. -/
theorem place_eq {peer : NodeRecord} {standing : Standing} {time : Timestamp}
    (hc : Candidate.mk peer e.self.id standing.distance time = candidate) :
    e.place peer standing time =
      let a := e.placeNs candidate
      let b := a.1.placePrimary standing.cells candidate
      let c := b.1.placeSecure standing.cells candidate
      (c.1, ⟨peer.hash, standing.distance, a.2, b.2.1, b.2.2, c.2.1, c.2.2⟩) := by
  rw [← hc]
  rfl

theorem rtPolicy_placeNs (e : Engine) (candidate : Candidate) :
    (e.placeNs candidate).1.rtPolicy = e.rtPolicy := by
  unfold placeNs
  split <;> rfl

theorem rtPolicy_placeSecure (e : Engine) (cells : Option Cells) (candidate : Candidate) :
    (e.placeSecure cells candidate).1.rtPolicy = e.rtPolicy := by
  unfold placeSecure
  split <;> rfl

section
variable (e : Engine) (peer : NodeRecord) (standing : Standing) (time : Timestamp)

/-- The neighborhood set after a placement. -/
theorem ns_place : (e.place peer standing time).1.tables.get .ns =
    (e.placeNs ⟨peer, e.self.id, standing.distance, time⟩).1.tables.get .ns := by
  rw [place_eq rfl, placeSecure_other (by decide) (by decide),
    placePrimary_other (by decide) (by decide)]

/-- RT1 and RT2 after a placement: they are filled after the neighborhood set. -/
theorem routing_place {kind : TableKind} (h₁ : kind ≠ .secRt1) (h₂ : kind ≠ .secRt2) :
    (e.place peer standing time).1.tables.get kind =
      ((e.placeNs ⟨peer, e.self.id, standing.distance, time⟩).1.placePrimary standing.cells
        ⟨peer, e.self.id, standing.distance, time⟩).1.tables.get kind := by
  rw [place_eq rfl, placeSecure_other h₁ h₂]

theorem rtPolicy_place : (e.place peer standing time).1.rtPolicy =
    ((e.placeNs ⟨peer, e.self.id, standing.distance, time⟩).1.placePrimary standing.cells
      ⟨peer, e.self.id, standing.distance, time⟩).1.rtPolicy := by
  rw [place_eq rfl, rtPolicy_placeSecure]

end

/-- The effect of a placement on all tables. -/
structure Places (e e' : Engine) (cells : Option Cells) (candidate : Candidate) (r : Report) :
    Prop where
  keeps : e'.Keeps e
  ns : Placed (e.tables.get .ns) candidate r.ns (e'.tables.get .ns)
  /-- The neighborhood set is offered the peer first. -/
  ns_offer : r.ns = (e.placeNs candidate).2 ∧ e'.nsPolicy = (e.placeNs candidate).1.nsPolicy
  ns_considered : ∀ i a, r.ns = .considered i a → e.config.useNs = true ∧ i = SlotRef.ns.index
  ns_disabled : r.ns = .disabled → e.config.useNs = false
  primary : (TablePair.primary e.config).Places e.config.excludeRt2Scope cells candidate e.tables
    e'.tables r.rt1 r.rt2
  secure : TablePair.secure.Places e.config.excludeRt2Scope (e.secureCells cells) candidate
    e.tables e'.tables r.secRt1 r.secRt2

/-- **Every table takes a peer by its own rules.** -/
theorem places_place (e : Engine) (peer : NodeRecord) (standing : Standing) (time : Timestamp) :
    e.Places (e.place peer standing time).1 standing.cells
      ⟨peer, e.self.id, standing.distance, time⟩ (e.place peer standing time).2 := by
  generalize hc : Candidate.mk peer e.self.id standing.distance time = candidate
  rw [place_eq hc]
  dsimp only
  generalize ha : e.placeNs candidate = a
  generalize hb : a.1.placePrimary standing.cells candidate = b
  have hka : a.1.Keeps e := ha ▸ e.keeps_placeNs candidate
  have hkb : b.1.Keeps a.1 := hb ▸ a.1.keeps_placePrimary ..
  have hkc := b.1.keeps_placeSecure standing.cells candidate
  have hna : ∀ {kind}, kind ≠ .ns → a.1.tables.get kind = e.tables.get kind := by
    intro kind hne
    rw [← ha, placeNs_other hne]
  have hnb : ∀ {kind}, kind ≠ .rt1 → kind ≠ .rt2 → b.1.tables.get kind = a.1.tables.get kind := by
    intro kind h₁ h₂
    rw [← hb, placePrimary_other h₁ h₂]
  constructor
  case keeps => exact hkc.trans (hkb.trans hka)
  case ns =>
    rw [placeSecure_other (by decide) (by decide), hnb (by decide) (by decide), ← ha]
    exact e.placeNs_placed candidate
  case ns_offer =>
    refine ⟨by rw [← ha], ?_⟩
    rw [nsPolicy_placeSecure, ← hb, nsPolicy_placePrimary, ← ha]
  case ns_considered =>
    intro i admission h
    rw [← ha] at h
    exact placeNs_considered h
  case ns_disabled =>
    intro h
    rw [← ha] at h
    exact placeNs_disabled h
  case primary =>
    have h := a.1.places_placePrimary standing.cells candidate
    rw [hka.config, hb] at h
    refine h.congr (hna TableKind.noConfusion).symm (hna TableKind.noConfusion).symm ?_ ?_
    · exact placeSecure_other TableKind.noConfusion TableKind.noConfusion
    · exact placeSecure_other TableKind.noConfusion TableKind.noConfusion
  case secure =>
    have h := b.1.places_placeSecure standing.cells candidate
    have hcells : b.1.secureCells standing.cells = e.secureCells standing.cells := by
      rw [secureCells, secureCells, hkb.secure, hka.secure]
    rw [hkb.config, hka.config, hcells] at h
    refine h.congr ?_ ?_ rfl rfl
    · exact ((hnb TableKind.noConfusion TableKind.noConfusion).trans
        (hna TableKind.noConfusion)).symm
    · exact ((hnb TableKind.noConfusion TableKind.noConfusion).trans
        (hna TableKind.noConfusion)).symm

namespace Places

variable {r : Report}

/-- Each table takes the peer. -/
theorem placed (h : e.Places e' cells candidate r) (kind : TableKind) :
    Placed (e.tables.get kind) candidate (r.get kind) (e'.tables.get kind) := by
  cases kind with
  | ns => exact h.ns
  | rt1 => exact h.primary.rt1
  | rt2 => exact h.primary.rt2
  | secRt1 => exact h.secure.rt1
  | secRt2 => exact h.secure.rt2

end Places

/-! ## A notification -/

/-- All that placement reads. -/
structure SameState (e' e : Engine) : Prop where
  self : e'.self = e.self
  config : e'.config = e.config
  tables : e'.tables = e.tables
  nsPolicy : e'.nsPolicy = e.nsPolicy
  rtPolicy : e'.rtPolicy = e.rtPolicy
  securePolicy : e'.securePolicy = e.securePolicy

theorem SameState.trans {e'' : Engine} (h : e''.SameState e') (h' : e'.SameState e) :
    e''.SameState e :=
  ⟨h.self.trans h'.self, h.config.trans h'.config, h.tables.trans h'.tables,
    h.nsPolicy.trans h'.nsPolicy, h.rtPolicy.trans h'.rtPolicy,
    h.securePolicy.trans h'.securePolicy⟩

theorem SameState.keeps (h : e'.SameState e) : e'.Keeps e :=
  ⟨h.self, h.config, by rw [h.securePolicy]⟩

/-- The neighborhood set is offered a peer in the same way. -/
theorem SameState.placeNs (h : e'.SameState e) :
    (e'.placeNs candidate).2 = (e.placeNs candidate).2 ∧
      (e'.placeNs candidate).1.nsPolicy = (e.placeNs candidate).1.nsPolicy := by
  simp only [Engine.placeNs, h.config, h.tables, h.nsPolicy]
  split
  · exact ⟨rfl, rfl⟩
  · exact ⟨rfl, h.nsPolicy⟩

/-- Placements are about what they read. -/
theorem Places.congr {e₀ e₀' : Engine} {r : Report} (h : e₀.Places e₀' cells candidate r)
    (he : e₀.SameState e) (he' : e'.SameState e₀') : e.Places e' cells candidate r where
  keeps := he'.keeps.trans (h.keeps.trans he.keeps)
  ns := by rw [← he.tables, he'.tables]; exact h.ns
  ns_offer := by rw [← he.placeNs.1, ← he.placeNs.2, he'.nsPolicy]; exact h.ns_offer
  ns_considered := by rw [← he.config]; exact h.ns_considered
  ns_disabled := by rw [← he.config]; exact h.ns_disabled
  primary := by rw [← he.config, ← he.tables, he'.tables]; exact h.primary
  secure := by
    have hcells : e.secureCells cells = e₀.secureCells cells := by
      rw [secureCells, secureCells, he.securePolicy]
    rw [hcells, ← he.config, ← he.tables, he'.tables]
    exact h.secure

theorem sameState_checkRecent (e : Engine) (hash : UInt64) (time : Timestamp) :
    (e.checkRecent hash time).2.SameState e := by
  unfold checkRecent
  split <;> exact ⟨rfl, rfl, rfl, rfl, rfl, rfl⟩

theorem SameState.conflict? (h : e'.SameState e) (peer : NodeRecord) :
    e'.conflict? peer = e.conflict? peer := by
  rw [Engine.conflict?, Engine.conflict?, h.tables, h.config]

/-- The entries of a hash are those of all tables. -/
theorem mem_entriesOf {t : RoutingTable} (hw : ∀ kind, (t.get kind).WellFormed) {hash : UInt64}
    {stored : Entry} :
    stored ∈ t.entriesOf hash ↔ ∃ kind, stored ∈ (t.get kind).entries ∧ stored.hash = hash := by
  simp only [RoutingTable.entriesOf, List.mem_filterMap, (hw _).get?_eq_some_iff]
  constructor
  · rintro ⟨kind, -, h⟩
    exact ⟨kind, h⟩
  · rintro ⟨kind, h⟩
    exact ⟨kind, by cases kind <;> decide, h⟩

section
variable (hw : ∀ kind, (e.tables.get kind).WellFormed) {peer : NodeRecord}
  (h : e.conflict? peer = none) {kind : TableKind} {stored : Entry}
  (hs : stored ∈ (e.tables.get kind).entries) (hh : stored.hash = peer.hash)
include hw h hs hh

/-- A peer without a conflict is the one that is stored with its hash. -/
theorem id_eq_of_conflict? : stored.node.id = peer.id := by
  have hmem := (mem_entriesOf hw).2 ⟨kind, hs, hh⟩
  rw [Engine.conflict?] at h
  split at h
  · cases h
  rename_i hsame
  by_contra hne
  exact hsame (List.any_eq_true.2 ⟨stored, hmem, by simpa using hne⟩)

/-- Without address updates it is stored at its address. -/
theorem address_eq_of_conflict? (hoff : e.config.updateAddresses = false) :
    stored.node.address = peer.address := by
  have hmem := (mem_entriesOf hw).2 ⟨kind, hs, hh⟩
  rw [Engine.conflict?, hoff] at h
  split at h
  · cases h
  split at h
  · cases h
  rename_i hsame
  by_contra hne
  refine hsame (Bool.and_eq_true_iff.2 ⟨List.any_eq_true.2 ⟨stored, hmem, ?_⟩, rfl⟩)
  simpa using hne

end

/-- **What a notification does**: it is skipped and leaves all that placement
    reads, or the stored entries of the peer get its address and the peer is
    placed. -/
theorem notify_cases (e : Engine) (peer : NodeRecord) (time : Timestamp) :
    (∃ reason, (e.notify peer time).2 = .skipped reason ∧ (e.notify peer time).1.SameState e) ∨
    (peer.hash ≠ e.self.hash ∧ peer.id.shape = e.self.id.shape ∧ e.conflict? peer = none ∧
      ∃ (standing : Standing) (e₀ : Engine),
        Standing.compute e.config e.self.id peer.id = .ok standing ∧
        e₀.SameState { e with tables := (e.tables.updateAddress peer).1 } ∧
        (e.notify peer time).2 = .processed (e₀.place peer standing time).2 ∧
        (e.notify peer time).1.SameState (e₀.place peer standing time).1) := by
  unfold notify
  split
  · exact Or.inl ⟨_, rfl, rfl, rfl, rfl, rfl, rfl, rfl⟩
  rename_i hself
  split
  · exact Or.inl ⟨_, rfl, rfl, rfl, rfl, rfl, rfl, rfl⟩
  rename_i hshape
  split
  · exact Or.inl ⟨_, rfl, rfl, rfl, rfl, rfl, rfl, rfl⟩
  rename_i claimed _
  have hrecent := sameState_checkRecent { e with inFlight := claimed } peer.hash time
  unfold process
  dsimp only
  generalize ({ e with inFlight := claimed } : Engine).checkRecent peer.hash time = c at hrecent
  obtain ⟨recent, e₁⟩ := c
  have hsame : e₁.SameState e := ⟨hrecent.self, hrecent.config, hrecent.tables, hrecent.nsPolicy,
    hrecent.rtPolicy, hrecent.securePolicy⟩
  dsimp only
  split
  · exact Or.inl ⟨_, rfl, { hsame with }⟩
  split
  · exact Or.inl ⟨_, rfl, { hsame with }⟩
  · exact Or.inl ⟨_, rfl, { hsame with }⟩
  · rename_i standing hconflict hstanding
    rw [hsame.conflict?] at hconflict
    rw [hsame.config, hsame.self] at hstanding
    refine Or.inr ⟨hself, by simpa using hshape, hconflict, standing,
      { e₁ with tables := (e₁.tables.updateAddress peer).1 }, hstanding, { hsame with tables := ?_ },
      rfl, ⟨rfl, rfl, rfl, rfl, rfl, rfl⟩⟩
    rw [hsame.tables]

/-- **A notification that is not skipped** places the peer in the tables, in
    which its entries have the new address. -/
theorem notify_processed {e : Engine} {peer : NodeRecord} {time : Timestamp} {report : Report}
    (h : (e.notify peer time).2 = .processed report) :
    peer.hash ≠ e.self.hash ∧ e.conflict? peer = none ∧
      ∃ standing, Standing.compute e.config e.self.id peer.id = .ok standing ∧
        report.distance = standing.distance ∧
        ({ e with tables := (e.tables.updateAddress peer).1 } : Engine).Places
          (e.notify peer time).1 standing.cells
          ⟨peer, e.self.id, standing.distance, time⟩ report := by
  obtain ⟨reason, hskip, -⟩ | ⟨hself, -, hconflict, standing, e₀, hstanding, he₀, hout, hsame⟩ :=
    e.notify_cases peer time
  · rw [hskip] at h
    cases h
  rw [hout] at h
  cases h
  have hplaces := (e₀.places_place peer standing time).congr he₀ hsame
  rw [he₀.self] at hplaces
  exact ⟨hself, hconflict, standing, hstanding, rfl, hplaces⟩

/-- The look-up changes the memory of recent peers only. -/
theorem checkRecent_eq (e : Engine) (hash : UInt64) (time : Timestamp) : e.checkRecent hash time =
    ((e.checkRecent hash time).1, { e with recent := (e.checkRecent hash time).2.recent }) := by
  unfold checkRecent
  split <;> rfl

/-- It reads the memory of recent peers only. -/
theorem checkRecent_congr (h : e'.recent = e.recent) (hash : UInt64) (time : Timestamp) :
    (e'.checkRecent hash time).1 = (e.checkRecent hash time).1 ∧
      (e'.checkRecent hash time).2.recent = (e.checkRecent hash time).2.recent := by
  unfold checkRecent
  rw [h]
  cases e.recent with
  | none => exact ⟨rfl, h⟩
  | some w => exact ⟨rfl, rfl⟩

/-- The look-up does not read the claims. -/
theorem checkRecent_claimed (e : Engine) (claimed : InFlight) (hash : UInt64)
    (time : Timestamp) :
    ({ e with inFlight := claimed }.checkRecent hash time).1 = (e.checkRecent hash time).1 ∧
      ({ e with inFlight := claimed }.checkRecent hash time).2.recent =
        (e.checkRecent hash time).2.recent := by
  have hmemory : ({ e with inFlight := claimed } : Engine).recent = e.recent := rfl
  exact checkRecent_congr hmemory hash time

/-- The engine with a peer skipped after a look-up, unless it was placed. -/
theorem process_cases (e : Engine) (peer : NodeRecord) (time : Timestamp) :
    (∃ reason, e.process peer time = ({ e with
      recent := (e.checkRecent peer.hash time).2.recent
      counters := e.counters.record (.skipped reason) }, .skipped reason)) ∨
    ∃ report, (e.process peer time).2 = .processed report := by
  unfold process
  rw [e.checkRecent_eq]
  dsimp only
  split
  · exact Or.inl ⟨_, rfl⟩
  split
  · exact Or.inl ⟨_, rfl⟩
  · exact Or.inl ⟨_, rfl⟩
  · exact Or.inr ⟨_, rfl⟩

/-- **A peer that is skipped** is counted and looked up in the memory of recent
    peers; nothing else changes. -/
theorem notify_skipped {e : Engine} {peer : NodeRecord} {time : Timestamp} {reason : SkipReason}
    (h : (e.notify peer time).2 = .skipped reason) :
    ∃ recent, (recent = e.recent ∨ recent = (e.checkRecent peer.hash time).2.recent) ∧
      (e.notify peer time).1 =
        { e with recent := recent, counters := e.counters.record (.skipped reason) } := by
  unfold notify at h ⊢
  split at h
  · rename_i hself
    cases h
    rw [if_pos hself]
    exact ⟨e.recent, Or.inl rfl, rfl⟩
  rename_i hself
  rw [if_neg hself]
  split at h
  · rename_i hshape
    cases h
    rw [if_pos hshape]
    exact ⟨e.recent, Or.inl rfl, rfl⟩
  rename_i hshape
  rw [if_neg hshape]
  cases hclaim : e.inFlight.acquire? peer.hash with
  | none =>
    rw [hclaim] at h
    cases h
    exact ⟨e.recent, Or.inl rfl, rfl⟩
  | some claimed =>
    rw [hclaim] at h
    refine ⟨(e.checkRecent peer.hash time).2.recent, Or.inr rfl, ?_⟩
    have hlookup := (e.checkRecent_claimed claimed peer.hash time).2
    dsimp only at h ⊢
    rcases ({ e with inFlight := claimed }).process_cases peer time with
      ⟨reason', hskip⟩ | ⟨report, hreport⟩
    · rw [hskip] at h ⊢
      cases h
      rw [hlookup, InFlight.release_of_acquire? hclaim]
    · rw [hreport] at h
      cases h

end Engine

end CubeRouting
