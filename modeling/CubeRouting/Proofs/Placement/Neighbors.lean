/-
  Neighboring hypercubes.

  `IsNeighborAt` says by shared digits when a peer is in the neighboring
  hypercube of a level and a dimension.  The scan of a place looks at few
  levels, along one dimension; still it misses nothing:

  * `IsNeighborAt.differsOnlyIn`: such a peer is a sibling along the dimension,
    and it agrees with the node outside that dimension as far as the hypercube
    goes;
  * `isNeighborAt_top`: a sibling is in the neighboring hypercube of its RT1
    level;
  * `matchingLevel_ok`: `matchingLevel` is the lowest level of all that are
    below the bound;
  * `compute_refines_search`: `Adjacency.compute` against the search through
    all levels and dimensions.
-/
import CubeRouting.Proofs.Placement.Adjacency

namespace CubeRouting

open Identifier

/-- A peer is in the neighboring hypercube of level `l` along dimension `c`: it
    shares all but its last `l` digits with the node stepped up or down along
    `c` at the last of these digits. -/
def IsNeighborAt (self peer : Identifier) (c l : Nat) : Prop :=
  ∃ y, (self.stepUp c (self.digits - l - 1) = .ok y ∨
      self.stepDown c (self.digits - l - 1) = .ok y) ∧
    peer.SharesPrefix y (self.digits - l)

variable {self peer : Identifier} {c l k : Nat}

/-! ## Neighbors are siblings -/

theorem IsNeighborAt.isStep (hc : c < self.dimensions) (hl : l < self.digits)
    (h : IsNeighborAt self peer c l) :
    ∃ y, IsStep self y c (self.digits - l - 1) ∧ peer.SharesPrefix y (self.digits - l) := by
  obtain ⟨y, hy | hy, hshare⟩ := h
  · exact ⟨y, isStep_of_step hy hc (by omega), hshare⟩
  · exact ⟨y, isStep_of_step hy hc (by omega), hshare⟩

section
variable (hs : self.shape = peer.shape) (hc : c < self.dimensions) (hl : l < self.digits)
include hs hc hl

theorem IsNeighborAt.agreesOutside (h : IsNeighborAt self peer c l) {d : Nat}
    (hd : d < self.digits - l) : self.AgreesOutside peer c d := by
  intro i hi hne
  obtain ⟨y, hstep, hshare⟩ := h.isStep hc hl
  have hD : peer.dimensions = y.dimensions := congrArg Shape.dimensions (hs.symm.trans hstep.shape.symm)
  have hi' : i < peer.dimensions := by
    rwa [show peer.dimensions = self.dimensions from congrArg Shape.dimensions hs.symm]
  rw [hshare.bit_eq hD hd hi', hstep.bit_other d (by omega) i hi hne]

/-- The digit of the step differs. -/
theorem IsNeighborAt.bit_ne (h : IsNeighborAt self peer c l) :
    self.bit (self.digits - l - 1) c ≠ peer.bit (self.digits - l - 1) c := by
  obtain ⟨y, hstep, hshare⟩ := h.isStep hc hl
  have hD : peer.dimensions = y.dimensions := congrArg Shape.dimensions (hs.symm.trans hstep.shape.symm)
  have hc' : c < peer.dimensions := by
    rwa [show peer.dimensions = self.dimensions from congrArg Shape.dimensions hs.symm]
  rw [hshare.bit_eq hD (by omega) hc', hstep.bit_self]
  cases self.bit (self.digits - l - 1) c <;> simp

/-- **A neighbor is a sibling** along the same dimension, at a level of at most
    its RT1 level. -/
theorem IsNeighborAt.differsOnlyIn (h : IsNeighborAt self peer c l)
    (hk : self.commonPrefix peer = .ok k) :
    self.DiffersOnlyIn peer c k ∧ l ≤ self.digits - 1 - k := by
  have hD : self.dimensions = peer.dimensions := congrArg Shape.dimensions hs
  have hbit := h.bit_ne hs hc hl
  have hne : self ≠ peer := by rintro rfl; exact hbit rfl
  obtain ⟨hlt, hshare, hdiff⟩ := commonPrefix_lt hs hne hk
  have hkl : k < self.digits - l := by
    by_contra hge
    exact hbit (hshare.bit_eq hD (by omega) hc)
  have hout := h.agreesOutside hs hc hl hkl
  refine ⟨⟨hc, fun heq => hdiff ((digitBits_eq_iff hD).2 fun i hi => ?_), hout⟩, by omega⟩
  by_cases hic : i = c
  · rw [hic, heq]
  · exact hout i hi hic

end

/-- **The top level**: a sibling is in the neighboring hypercube of its RT1
    level. -/
theorem isNeighborAt_top (hs : self.shape = peer.shape) (hk : k < self.digits)
    (hshare : self.SharesPrefix peer k) (h : self.DiffersOnlyIn peer c k) :
    IsNeighborAt self peer c (self.digits - 1 - k) := by
  obtain ⟨hc, hbit, hout⟩ := h
  obtain ⟨up, y, hstep, hshape, hbits⟩ := self.exists_short_step hc hk
  have hlast : self.digits - (self.digits - 1 - k) - 1 = k := by omega
  refine ⟨y, ?_, fun d hd => ?_⟩
  · rw [hlast]
    cases up with
    | true => exact Or.inl hstep
    | false => exact Or.inr hstep
  · have hD : self.dimensions = peer.dimensions := congrArg Shape.dimensions hs
    have hDy : peer.dimensions = y.dimensions := congrArg Shape.dimensions (hs.symm.trans hshape.symm)
    refine (digitBits_eq_iff hDy).2 fun i hi => ?_
    rw [← hD] at hi
    rw [hbits d (by omega) i hi]
    by_cases hdk : d = k
    · subst hdk
      by_cases hic : i = c
      · subst hic
        rw [if_pos ⟨rfl, rfl⟩]
        revert hbit
        cases self.bit d i <;> cases peer.bit d i <;> simp
      · rw [if_neg fun h => hic h.1, hout i hi hic]
    · rw [if_neg fun h => hdk h.2, hshare.bit_eq hD (by omega) hi]

/-! ## The search for a level -/

namespace Rt2Scan

variable {scan : Rt2Scan}

open Classical in
theorem matchesAt_ok (hs : self.shape = peer.shape) (hc : scan.dimension < self.dimensions)
    (hl : l < self.digits) :
    scan.matchesAt self peer l = .ok (decide (IsNeighborAt self peer scan.dimension l)) := by
  have hd : self.digits - l - 1 < self.digits := by omega
  obtain ⟨up, hup, hupShape, -⟩ := self.exists_step true hc hd
  obtain ⟨down, hdown, hdownShape, -⟩ := self.exists_step false hc hd
  obtain ⟨m, hm, -, hmiff⟩ := exists_commonPrefix (hs.symm.trans hupShape.symm)
  obtain ⟨m', hm', -, hmiff'⟩ := exists_commonPrefix (hs.symm.trans hdownShape.symm)
  have hdig : self.digits = peer.digits := congrArg Shape.digits hs
  have hcond : (self.digits - l ≤ m ∨ self.digits - l ≤ m') ↔
      IsNeighborAt self peer scan.dimension l := by
    rw [hmiff _ (by omega), hmiff' _ (by omega)]
    constructor
    · rintro (h | h)
      · exact ⟨up, Or.inl hup, h⟩
      · exact ⟨down, Or.inr hdown, h⟩
    · rintro ⟨y, hy | hy, h⟩
      · exact Or.inl (Except.ok.inj (hup.symm.trans hy) ▸ h)
      · exact Or.inr (Except.ok.inj (hdown.symm.trans hy) ▸ h)
  simp only [matchesAt, stepUp, stepDown, hup, hdown, ok_bind, hm, hm', ← hcond, Bool.decide_or]
  rfl

/-- A search whose tests all succeed. -/
theorem findM?_ok {ε α : Type} {f : α → Except ε Bool} {p : α → Bool} :
    ∀ {xs : List α}, (∀ a ∈ xs, f a = .ok (p a)) → xs.findM? f = .ok (xs.find? p)
  | [], _ => rfl
  | a :: xs, h => by
    rw [List.findM?, h a (List.mem_cons_self ..), ok_bind, List.find?]
    cases p a with
    | true => rfl
    | false => exact findM?_ok fun b hb => h b (List.mem_cons_of_mem _ hb)

/-- **The matching level is the lowest** of all levels below the bound at which
    the peer is in a neighboring hypercube. -/
theorem matchingLevel_ok (hs : self.shape = peer.shape) (hk : self.commonPrefix peer = .ok k)
    (hscan : Adjacency.Scans scan self peer k) (bound : Nat) :
    ∃ r, scan.matchingLevel self peer bound = .ok r ∧
      (∀ l, r = some l ↔ (l < self.digits ∧ l < bound ∧ IsNeighborAt self peer scan.dimension l) ∧
        ∀ j < l, ¬IsNeighborAt self peer scan.dimension j) ∧
      (r = none ↔ ∀ l < self.digits, l < bound → ¬IsNeighborAt self peer scan.dimension l) := by
  classical
  have hc := hscan.dimension.1
  have hmax := hscan.maxLevel
  have hdig : 0 < self.digits := self.digits_pos
  -- no level outside the scan matches
  have hrange : ∀ l < self.digits, IsNeighborAt self peer scan.dimension l →
      scan.minLevel ≤ l ∧ l ≤ scan.maxLevel := fun l hl h => by
    have hle := (h.differsOnlyIn hs hc hl hk).2
    rw [← hmax] at hle
    exact ⟨(hscan.minLevel l hle).2 fun d hd => h.agreesOutside hs hc hl hd, hle⟩
  have hmem : ∀ l, l ∈ scan.levelsBelow bound ↔ scan.minLevel ≤ l ∧ l ≤ scan.maxLevel ∧ l < bound := by
    intro l
    simp only [levelsBelow, List.mem_range'_1]
    omega
  refine ⟨_, findM?_ok fun l hl => matchesAt_ok hs hc ?_, fun l => ?_, ?_⟩
  · have := (hmem l).1 hl
    omega
  · rw [levelsBelow, List.find?_range'_eq_some, ← levelsBelow, hmem]
    simp only [decide_eq_true_eq, Bool.not_eq_true', decide_eq_false_iff_not]
    constructor
    · rintro ⟨h, ⟨hmin, hle, hlt⟩, hfirst⟩
      refine ⟨⟨by omega, hlt, h⟩, fun j hj h' => ?_⟩
      exact hfirst j (hrange j (by omega) h').1 hj h'
    · rintro ⟨⟨hl, hlt, h⟩, hfirst⟩
      exact ⟨h, ⟨(hrange l hl h).1, (hrange l hl h).2, hlt⟩, fun j _ hj => hfirst j hj⟩
  · simp only [List.find?_eq_none, hmem, decide_eq_true_eq]
    constructor
    · exact fun hnone l hl hlt h => hnone l ⟨(hrange l hl h).1, (hrange l hl h).2, hlt⟩ h
    · exact fun hnone l ⟨_, hle, hlt⟩ => hnone l (by omega) hlt

end Rt2Scan

/-! ## The place of a peer and the search through all levels -/

namespace Adjacency

variable {a : Adjacency}

theorem Describes.of_neighbor (h : a.Describes self peer) (hs : self.shape = peer.shape)
    (hc : c < self.dimensions) (hl : l < self.digits) (hn : IsNeighborAt self peer c l) :
    ∃ scan ∈ a.rt2, c = scan.dimension ∧ scan.minLevel ≤ l ∧ l ≤ scan.maxLevel := by
  obtain ⟨hdiff, hle⟩ := hn.differsOnlyIn hs hc hl h.shared
  have hsome : a.rt2.isSome = true := by rw [h.rt2_isSome, h.sibling]; exact ⟨c, hdiff⟩
  obtain ⟨scan, hscan⟩ := Option.isSome_iff_exists.1 hsome
  have hS := h.scans scan hscan
  obtain rfl : c = scan.dimension := hS.dimension.unique hdiff
  rw [← hS.maxLevel] at hle
  exact ⟨scan, hscan, rfl, (hS.minLevel l hle).2 fun d hd => hn.agreesOutside hs hc hl hd, hle⟩

theorem Describes.neighbor_top (h : a.Describes self peer) (hs : self.shape = peer.shape)
    (hne : self ≠ peer) {scan : Rt2Scan} (hscan : scan ∈ a.rt2) :
    IsNeighborAt self peer scan.dimension scan.maxLevel := by
  have hS := h.scans scan hscan
  obtain ⟨hlt, hshare, -⟩ := commonPrefix_lt hs hne h.shared
  rw [hS.maxLevel]
  exact isNeighborAt_top hs hlt hshare hS.dimension

/-- **The place of a peer against the search through all levels and
    dimensions.** -/
theorem compute_refines_search (self peer : Identifier) :
    ((∃ a, compute self peer = .ok a) ↔
      self.shape = peer.shape ∧ self ≠ peer ∧ self.dimensions < 64) ∧
    ∀ a, compute self peer = .ok a →
      ((∃ scan, a.rt2 = some scan) ↔
        ∃ c l, c < self.dimensions ∧ l < self.digits ∧ IsNeighborAt self peer c l) ∧
      ∀ scan, a.rt2 = some scan →
        (∀ c < self.dimensions, ∀ l < self.digits, IsNeighborAt self peer c l →
          c = scan.dimension ∧ scan.minLevel ≤ l ∧ l ≤ scan.maxLevel) ∧
        (scan.dimension < self.dimensions ∧ scan.maxLevel < self.digits ∧
          IsNeighborAt self peer scan.dimension scan.maxLevel) ∧
        ∀ bound, ∃ r, scan.matchingLevel self peer bound = .ok r ∧
          (∀ l, r = some l ↔
            (l < self.digits ∧ l < bound ∧ IsNeighborAt self peer scan.dimension l) ∧
              ∀ j < l, ¬IsNeighborAt self peer scan.dimension j) ∧
          (r = none ↔ ∀ l < self.digits, l < bound →
            ¬IsNeighborAt self peer scan.dimension l) := by
  refine ⟨⟨fun ⟨a, ha⟩ => ?_, fun ⟨hs, hne, hD⟩ => ?_⟩, fun a ha => ?_⟩
  · obtain ⟨hs, hne, hD, -⟩ := describes_of_compute ha
    exact ⟨hs, hne, hD⟩
  · obtain ⟨a, ha, -⟩ := exists_compute hs hne hD
    exact ⟨a, ha⟩
  obtain ⟨hs, hne, -, hdesc⟩ := describes_of_compute ha
  refine ⟨⟨fun ⟨scan, hscan⟩ => ?_, fun ⟨c, l, hc, hl, hn⟩ => ?_⟩, fun scan hscan => ⟨?_, ?_, ?_⟩⟩
  · have hS := hdesc.scans scan hscan
    have := hdesc.shared_lt
    exact ⟨_, _, hS.dimension.1, by rw [hS.maxLevel]; omega, hdesc.neighbor_top hs hne hscan⟩
  · obtain ⟨scan, hscan, -⟩ := hdesc.of_neighbor hs hc hl hn
    exact ⟨scan, hscan⟩
  · intro c hc l hl hn
    obtain ⟨scan', hscan', hrest⟩ := hdesc.of_neighbor hs hc hl hn
    obtain rfl : scan' = scan := Option.some.inj (hscan'.symm.trans hscan)
    exact hrest
  · have hS := hdesc.scans scan hscan
    have := hdesc.shared_lt
    exact ⟨hS.dimension.1, by rw [hS.maxLevel]; omega, hdesc.neighbor_top hs hne hscan⟩
  · exact fun bound => Rt2Scan.matchingLevel_ok hs hdesc.shared (hdesc.scans scan hscan) bound

end Adjacency

end CubeRouting
