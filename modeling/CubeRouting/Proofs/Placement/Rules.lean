/-
  The policies of a node.

  A policy changes what it remembers from offer to offer, but not its rule.
  `Engine.Follows` says that every table is filled by the rule that the
  configuration has for it.

  * `kept_ns_notify`, `kept_rt_notify`: a notification keeps what every decision
    keeps;
  * `place_follows`: a peer is offered to each table by a policy of its rule,
    and the rules stay in use;
  * `notify_follows`: the same for a notification.
-/
import CubeRouting.Proofs.Placement.Notify
import CubeRouting.Proofs.Policy.Faults

namespace CubeRouting

/-! ## One table -/

/-- If the candidate was offered to a slot of the table, a policy of the rule
    has decided. -/
def Placement.MadeBy (p : Placement) (rule : Policy) (candidate : Candidate) (t t' : SubTable) :
    Prop :=
  ∀ i a, p = .considered i a → ∃ policy : Policy, policy.rule = rule ∧
    (t.offer policy candidate i).1 = t' ∧ (t.offer policy candidate i).2.2 = a

theorem Placement.madeBy_disabled {rule : Policy} {candidate : Candidate} {t t' : SubTable} :
    Placement.disabled.MadeBy rule candidate t t' := fun i a h => by cases h

theorem SubTable.rule_offer (t : SubTable) (policy : Policy) (candidate : Candidate)
    (i : SlotIndex) : (t.offer policy candidate i).2.1.rule = policy.rule :=
  policy.rule_decide (t.offerOf candidate i)

namespace Shelf

/-- A policy of the shelf's rule has placed the candidate, and the rule stays. -/
structure Serves (s s' : Shelf) (kind : TableKind) (candidate : Candidate) (p : Placement) :
    Prop where
  rule : s'.policy.rule = s.policy.rule
  made : p.MadeBy s.policy.rule candidate (s.tables.get kind) (s'.tables.get kind)

/-- Nothing is asked of a policy without an offer. -/
theorem serves_idle {s : Shelf} {kind : TableKind} {candidate : Candidate} {p : Placement}
    (h : ∀ i a, p ≠ .considered i a) : s.Serves s kind candidate p :=
  ⟨rfl, fun i a hp => absurd hp (h i a)⟩

theorem serves_offer (s : Shelf) (kind : TableKind) (i : SlotIndex) (candidate : Candidate) :
    s.Serves (s.offer kind i candidate).1 kind candidate (s.offer kind i candidate).2 := by
  unfold offer
  dsimp only
  split
  · exact serves_idle nofun
  · refine ⟨SubTable.rule_offer .., ?_⟩
    rintro j a ⟨⟩
    rw [RoutingTable.get_set, if_pos rfl]
    exact ⟨s.policy, rfl, rfl, rfl⟩

end Shelf

/-! ## A pair of tables -/

namespace TablePair

variable {pair : TablePair} {leaveToRt2 : Bool} {cells : Cells} {candidate : Candidate} {s : Shelf}
  {first : Placement}

theorem placeRt1_serves :
    s.Serves (pair.placeRt1 leaveToRt2 cells candidate s).1 pair.rt1 candidate
      (pair.placeRt1 leaveToRt2 cells candidate s).2 := by
  unfold placeRt1
  split
  · exact Shelf.serves_idle nofun
  split
  · exact Shelf.serves_idle nofun
  split
  · exact Shelf.serves_idle nofun
  split
  · exact Shelf.serves_idle nofun
  · exact s.serves_offer ..

theorem placeRt2_serves :
    s.Serves (pair.placeRt2 cells candidate first s).1 pair.rt2 candidate
      (pair.placeRt2 cells candidate first s).2 := by
  unfold placeRt2
  split
  · exact Shelf.serves_idle nofun
  split
  · exact Shelf.serves_idle nofun
  generalize (if first.holdsPeer then cells.rt2Below else cells.rt2) = cell
  cases cell with
  | none => exact Shelf.serves_idle nofun
  | some i => exact s.serves_offer ..

/-- **The tables of a pair are filled by one rule.** -/
theorem place_serves (pair : TablePair) (leaveToRt2 : Bool) (cells : Cells) (candidate : Candidate)
    (s : Shelf) (hne : pair.rt1 ≠ pair.rt2) :
    s.Serves (pair.place leaveToRt2 cells candidate s).1 pair.rt1 candidate
      (pair.place leaveToRt2 cells candidate s).2.1 ∧
    s.Serves (pair.place leaveToRt2 cells candidate s).1 pair.rt2 candidate
      (pair.place leaveToRt2 cells candidate s).2.2 := by
  unfold place
  dsimp only
  have hfirst : s.Serves (pair.placeRt1 leaveToRt2 cells candidate s).1 pair.rt1 candidate
      (pair.placeRt1 leaveToRt2 cells candidate s).2 := placeRt1_serves
  have hother : (pair.placeRt1 leaveToRt2 cells candidate s).1.tables.get pair.rt2 =
      s.tables.get pair.rt2 := placeRt1_other hne.symm
  generalize pair.placeRt1 leaveToRt2 cells candidate s = r at hfirst hother ⊢
  have hsecond : r.1.Serves (pair.placeRt2 cells candidate r.2 r.1).1 pair.rt2 candidate
      (pair.placeRt2 cells candidate r.2 r.1).2 := placeRt2_serves
  refine ⟨⟨hsecond.rule.trans hfirst.rule, ?_⟩, hsecond.rule.trans hfirst.rule, ?_⟩
  · rw [placeRt2_other hne]
    exact hfirst.made
  · rw [← hfirst.rule, ← hother]
    exact hsecond.made

end TablePair

/-! ## What decisions keep -/

/-- A property of policies that every decision keeps. -/
def Policy.Kept (P : Policy → Prop) : Prop := ∀ p o, P p → P (p.decide o).2

section
variable {P : Policy → Prop} (hP : Policy.Kept P) {s : Shelf} {e : Engine}
include hP

theorem Shelf.kept_offer (h : P s.policy) (kind : TableKind) (i : SlotIndex)
    (candidate : Candidate) : P (s.offer kind i candidate).1.policy := by
  unfold offer
  dsimp only
  split
  · exact h
  · exact hP s.policy ((s.tables.get kind).offerOf candidate i) h

theorem TablePair.kept_place (h : P s.policy) (pair : TablePair) (leaveToRt2 : Bool)
    (cells : Cells) (candidate : Candidate) :
    P (pair.place leaveToRt2 cells candidate s).1.policy := by
  have hfirst : P (pair.placeRt1 leaveToRt2 cells candidate s).1.policy := by
    unfold placeRt1
    split
    · exact h
    split
    · exact h
    split
    · exact h
    split
    · exact h
    · exact Shelf.kept_offer hP h ..
  unfold place
  dsimp only
  generalize pair.placeRt1 leaveToRt2 cells candidate s = r at hfirst ⊢
  unfold placeRt2
  split
  · exact hfirst
  split
  · exact hfirst
  split
  · exact Shelf.kept_offer hP hfirst ..
  · exact hfirst

namespace Engine

theorem kept_placeNs (h : P e.nsPolicy) (candidate : Candidate) :
    P (e.placeNs candidate).1.nsPolicy := by
  unfold placeNs
  split
  · exact Shelf.kept_offer hP (s := ⟨e.tables, e.nsPolicy⟩) h ..
  · exact h

theorem kept_placePrimary (h : P e.rtPolicy) (cells : Option Cells) (candidate : Candidate) :
    P (e.placePrimary cells candidate).1.rtPolicy := by
  cases cells with
  | none => exact h
  | some cells => exact TablePair.kept_place hP (s := ⟨e.tables, e.rtPolicy⟩) h ..

/-- **What every decision keeps, a notification keeps** of the policy of the
    neighborhood set. -/
theorem kept_ns_notify (h : P e.nsPolicy) (peer : NodeRecord) (time : Timestamp) :
    P (e.notify peer time).1.nsPolicy := by
  obtain ⟨reason, -, hsame⟩ | ⟨-, -, -, standing, e₀, -, he₀, -, hsame⟩ := e.notify_cases peer time
  · rwa [hsame.nsPolicy]
  · rw [hsame.nsPolicy, (e₀.places_place peer standing time).ns_offer.2]
    exact kept_placeNs hP (by rwa [he₀.nsPolicy]) _

/-- **What every decision keeps, a notification keeps** of the policy of RT1 and
    RT2. -/
theorem kept_rt_notify (h : P e.rtPolicy) (peer : NodeRecord) (time : Timestamp) :
    P (e.notify peer time).1.rtPolicy := by
  obtain ⟨reason, -, hsame⟩ | ⟨-, -, -, standing, e₀, -, he₀, -, hsame⟩ := e.notify_cases peer time
  · rwa [hsame.rtPolicy]
  · rw [hsame.rtPolicy, rtPolicy_place]
    refine kept_placePrimary hP ?_ _ _
    rwa [rtPolicy_placeNs, he₀.rtPolicy]

end Engine

end

/-! ## All tables -/

/-- The policies of the engine follow the rules of its configuration. -/
structure Engine.Follows (e : Engine) : Prop where
  ns : e.nsPolicy.rule = e.config.ruleOf .ns
  rt : e.rtPolicy.rule = e.config.ruleOf .rt1
  secure : ∀ p ∈ e.securePolicy, p.rule = e.config.ruleOf .secRt1

namespace Engine

variable {e e' : Engine}

theorem follows_fresh (self : NodeRecord) (c : Config) (entropy : WordStream) :
    (fresh self c entropy).Follows where
  ns := rfl
  rt := rfl
  secure := by
    intro p hp
    simp only [fresh] at hp
    split at hp
    · cases hp
      rfl
    · cases hp

theorem Follows.congr (h : e.Follows) (he : e'.SameState e) : e'.Follows where
  ns := by rw [he.nsPolicy, he.config]; exact h.ns
  rt := by rw [he.rtPolicy, he.config]; exact h.rt
  secure := by rw [he.securePolicy, he.config]; exact h.secure

theorem placeNs_follows (h : e.Follows) (candidate : Candidate) :
    (e.placeNs candidate).1.Follows ∧
    (e.placeNs candidate).2.MadeBy (e.config.ruleOf .ns) candidate (e.tables.get .ns)
      ((e.placeNs candidate).1.tables.get .ns) := by
  unfold placeNs
  split
  · have hserves := Shelf.serves_offer ⟨e.tables, e.nsPolicy⟩ .ns SlotRef.ns.index candidate
    refine ⟨⟨hserves.rule.trans h.ns, h.rt, h.secure⟩, ?_⟩
    rw [← h.ns]
    exact hserves.made
  · exact ⟨h, Placement.madeBy_disabled⟩

theorem placePrimary_follows (h : e.Follows) (cells : Option Cells) (candidate : Candidate) :
    (e.placePrimary cells candidate).1.Follows ∧
    (e.placePrimary cells candidate).2.1.MadeBy (e.config.ruleOf .rt1) candidate
      (e.tables.get .rt1) ((e.placePrimary cells candidate).1.tables.get .rt1) ∧
    (e.placePrimary cells candidate).2.2.MadeBy (e.config.ruleOf .rt2) candidate
      (e.tables.get .rt2) ((e.placePrimary cells candidate).1.tables.get .rt2) := by
  cases cells with
  | none => exact ⟨h, Placement.madeBy_disabled, Placement.madeBy_disabled⟩
  | some cells =>
    obtain ⟨hrt1, hrt2⟩ := (TablePair.primary e.config).place_serves e.config.excludeRt2Scope cells
      candidate ⟨e.tables, e.rtPolicy⟩ TableKind.noConfusion
    refine ⟨⟨h.ns, hrt1.rule.trans h.rt, h.secure⟩, ?_⟩
    rw [show e.config.ruleOf .rt2 = e.config.ruleOf .rt1 from rfl, ← h.rt]
    exact ⟨hrt1.made, hrt2.made⟩

theorem placeSecure_follows (h : e.Follows) (cells : Option Cells) (candidate : Candidate) :
    (e.placeSecure cells candidate).1.Follows ∧
    (e.placeSecure cells candidate).2.1.MadeBy (e.config.ruleOf .secRt1) candidate
      (e.tables.get .secRt1) ((e.placeSecure cells candidate).1.tables.get .secRt1) ∧
    (e.placeSecure cells candidate).2.2.MadeBy (e.config.ruleOf .secRt2) candidate
      (e.tables.get .secRt2) ((e.placeSecure cells candidate).1.tables.get .secRt2) := by
  unfold placeSecure
  split
  · rename_i cells policy hpolicy
    have hrule := h.secure policy hpolicy
    obtain ⟨hrt1, hrt2⟩ := TablePair.secure.place_serves e.config.excludeRt2Scope cells candidate
      ⟨e.tables, policy⟩ TableKind.noConfusion
    refine ⟨⟨h.ns, h.rt, fun p hp => ?_⟩, ?_⟩
    · rw [← Option.some.inj hp]
      exact hrt1.rule.trans hrule
    · rw [show e.config.ruleOf .secRt2 = e.config.ruleOf .secRt1 from rfl, ← hrule]
      exact ⟨hrt1.made, hrt2.made⟩
  · exact ⟨h, Placement.madeBy_disabled, Placement.madeBy_disabled⟩

/-- **Every table is filled by its own rule**, and the rules stay. -/
theorem place_follows (h : e.Follows) (peer : NodeRecord) (standing : Standing)
    (time : Timestamp) : (e.place peer standing time).1.Follows ∧
      ∀ kind, ((e.place peer standing time).2.get kind).MadeBy (e.config.ruleOf kind)
        ⟨peer, e.self.id, standing.distance, time⟩ (e.tables.get kind)
        ((e.place peer standing time).1.tables.get kind) := by
  generalize hc : Candidate.mk peer e.self.id standing.distance time = candidate
  rw [place_eq hc]
  dsimp only
  obtain ⟨ha, hns⟩ := placeNs_follows h candidate
  have hca := (e.keeps_placeNs candidate).config
  have hna : ∀ {kind}, kind ≠ .ns →
      (e.placeNs candidate).1.tables.get kind = e.tables.get kind := placeNs_other
  generalize e.placeNs candidate = a at ha hns hca hna ⊢
  obtain ⟨hb, hrt1, hrt2⟩ := placePrimary_follows ha standing.cells candidate
  have hcb := (a.1.keeps_placePrimary standing.cells candidate).config
  have hnb : ∀ {kind}, kind ≠ .rt1 → kind ≠ .rt2 →
      (a.1.placePrimary standing.cells candidate).1.tables.get kind = a.1.tables.get kind :=
    placePrimary_other
  generalize a.1.placePrimary standing.cells candidate = b at hb hrt1 hrt2 hcb hnb ⊢
  obtain ⟨hc, hsecRt1, hsecRt2⟩ := placeSecure_follows hb standing.cells candidate
  have hnc : ∀ {kind}, kind ≠ .secRt1 → kind ≠ .secRt2 →
      (b.1.placeSecure standing.cells candidate).1.tables.get kind = b.1.tables.get kind :=
    placeSecure_other
  refine ⟨hc, fun kind => ?_⟩
  cases kind with
  | ns =>
    rw [hnc (by decide) (by decide), hnb (by decide) (by decide)]
    exact hns
  | rt1 =>
    rw [hnc (by decide) (by decide), ← hca, ← hna (by decide)]
    exact hrt1
  | rt2 =>
    rw [hnc (by decide) (by decide), ← hca, ← hna (by decide)]
    exact hrt2
  | secRt1 =>
    rw [← hca, ← hcb, ← hna (by decide), ← hnb (by decide) (by decide)]
    exact hsecRt1
  | secRt2 =>
    rw [← hca, ← hcb, ← hna (by decide), ← hnb (by decide) (by decide)]
    exact hsecRt2

/-- **A notification keeps the rules**, and its peer is offered by them to the
    tables in which its address is up to date. -/
theorem notify_follows (h : e.Follows) (peer : NodeRecord) (time : Timestamp) :
    (e.notify peer time).1.Follows ∧
      ∀ report, (e.notify peer time).2 = .processed report → ∀ kind,
        (report.get kind).MadeBy (e.config.ruleOf kind) ⟨peer, e.self.id, report.distance, time⟩
          ((e.tables.updateAddress peer).1.get kind) ((e.notify peer time).1.tables.get kind) := by
  obtain ⟨reason, hskip, hsame⟩ | ⟨-, -, -, standing, e₀, -, he₀, hout, hsame⟩ :=
    e.notify_cases peer time
  · refine ⟨h.congr hsame, fun report hreport => ?_⟩
    rw [hskip] at hreport
    cases hreport
  · have hmoved : ({ e with tables := (e.tables.updateAddress peer).1 } : Engine).Follows :=
      ⟨h.ns, h.rt, h.secure⟩
    obtain ⟨hfollows, hmade⟩ := place_follows (hmoved.congr he₀) peer standing time
    refine ⟨hfollows.congr hsame, fun report hreport kind => ?_⟩
    rw [hout] at hreport
    cases hreport
    have hkind := hmade kind
    rw [he₀.config, he₀.self, he₀.tables] at hkind
    rw [hsame.tables]
    exact hkind

end Engine

end CubeRouting
