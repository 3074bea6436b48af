/-
  What a secret mask changes.

  The secure policy clears its mask in the digits that the peers of a slot
  share.

  * `Identifier.digitBits_xor_window`: a mask moves no identifier away from the
    digits in which it is cleared;
  * `Offer.isMaskedDistance_of_maskedDistances`: what the peers are ranked by;
  * `MaskState.Agrees.serve`: runs under masks that agree in the last digits do
    the same;
  * `Policy.secure_mask_stays`: the mask stays inside the slot.
-/
import CubeRouting.Proofs.Identifier.Prefix
import CubeRouting.Proofs.Policy.MaskSchedule
import CubeRouting.Proofs.Placement.Ranges
import CubeRouting.Proofs.Run.Places

namespace CubeRouting

namespace Identifier

variable {x y z w mask mask' : Identifier} {start d : Nat}

/-! ## Masks that agree -/

/-- Two identifiers agree in digit `start` and all later ones. -/
def AgreesFrom (x y : Identifier) (start : Nat) : Prop :=
  ∀ d, start ≤ d → d < x.digits → x.digitBits d = y.digitBits d

theorem AgreesFrom.mono {start' : Nat} (h : x.AgreesFrom y start) (hle : start ≤ start') :
    x.AgreesFrom y start' := fun d hd => h d (hle.trans hd)

/-- There is no digit after the last one. -/
theorem agreesFrom_of_digits_le (h : x.digits ≤ start) (y : Identifier) : x.AgreesFrom y start :=
  fun _ hd hlt => absurd hlt (Nat.not_lt.2 (h.trans hd))

/-- **A mask matters only in the digits that are not cleared.** -/
theorem AgreesFrom.window_eq (h : mask.AgreesFrom mask' start) (hs : mask.shape = mask'.shape) :
    mask.window start = mask'.window start := by
  have hD : mask.dimensions = mask'.dimensions := congrArg Shape.dimensions hs
  have hn : mask.digits = mask'.digits := congrArg Shape.digits hs
  refine ext_bits hs fun d (hd : d < mask.digits) c (hc : c < mask.dimensions) => ?_
  rw [bit_window mask start hd hc, bit_window mask' start (hn ▸ hd) (hD ▸ hc)]
  by_cases hle : start ≤ d
  · rw [(digitBits_eq_iff hD).1 (h d hle hd) c hc]
  · rw [decide_eq_false hle, Bool.false_and, Bool.false_and]

/-! ## Masked identifiers -/

/-- A mask that is applied twice changes nothing. -/
theorem xor_xor (h : x.xor w = .ok z) : z.xor w = .ok x := by
  obtain ⟨hs, hshape, hbits⟩ := bit_xor h
  obtain ⟨x', hx', hshape', hbits'⟩ := exists_xor (hshape.trans hs)
  have hn : z.digits = x.digits := congrArg Shape.digits hshape
  have hD : z.dimensions = x.dimensions := congrArg Shape.dimensions hshape
  rw [hx']
  refine congrArg Except.ok (ext_bits (hshape'.trans hshape) fun d hd c hc => ?_)
  rw [show x'.digits = z.digits from congrArg Shape.digits hshape'] at hd
  rw [show x'.dimensions = z.dimensions from congrArg Shape.dimensions hshape'] at hc
  rw [hbits' d hd c hc, hbits d (hn ▸ hd) c (hD ▸ hc), Bool.xor_assoc, Bool.xor_self,
    Bool.xor_false]

/-- A cleared digit of a mask leaves a digit as it is. -/
theorem digitBits_xor_window (h : x.xor (mask.window start) = .ok z) (hd : d < start)
    (hlt : d < x.digits) : z.digitBits d = x.digitBits d := by
  obtain ⟨hs, hshape, hbits⟩ := bit_xor h
  have hn : x.digits = mask.digits := congrArg Shape.digits hs
  have hD : x.dimensions = mask.dimensions := congrArg Shape.dimensions hs
  have hD' : x.dimensions = z.dimensions := congrArg Shape.dimensions hshape.symm
  refine ((digitBits_eq_iff hD').2 fun c hc => ?_).symm
  rw [hbits d hlt c hc, bit_window mask start (hn ▸ hlt) (hD ▸ hc),
    decide_eq_false (Nat.not_le.2 hd), Bool.false_and, Bool.xor_false]

/-- A digit has the number of its bits. -/
theorem digitNat_congr (hs : x.shape = y.shape) (h : x.digitBits d = y.digitBits d) :
    x.digitNat d = y.digitNat d := by
  simp only [digitNat, digitWord, dimensions, digits, hs, h]

/-! ## The hypercube of a slot -/

/-- The hypercube of an identifier: those that share its first `m` digits. -/
def cube (x : Identifier) (m : Nat) : Set Identifier := {y | y.shape = x.shape ∧ x.SharesPrefix y m}

/-- `xor` with `w` maps a set of identifiers one to one onto itself. -/
structure Permutes (w : Identifier) (S : Set Identifier) : Prop where
  mapsTo : ∀ y ∈ S, ∃ z ∈ S, y.xor w = .ok z
  bijective : ∀ z ∈ S, ∃! y, y ∈ S ∧ y.xor w = .ok z

/-- **A window permutes a hypercube.** -/
theorem permutes_cube (hs : mask.shape = x.shape) (hstart : start ≤ x.digits) :
    (mask.window start).Permutes (x.cube start) := by
  have hmaps : ∀ y ∈ x.cube start, ∃ z ∈ x.cube start, y.xor (mask.window start) = .ok z := by
    rintro y ⟨hy, hshare⟩
    obtain ⟨z, hz, hshape, -⟩ := exists_xor (y := mask.window start) (hy.trans hs.symm)
    refine ⟨z, ⟨hshape.trans hy, fun d hd => ?_⟩, hz⟩
    have hn : y.digits = x.digits := congrArg Shape.digits hy
    rw [digitBits_xor_window hz hd (by omega), hshare d hd]
  refine ⟨hmaps, fun z hz => ?_⟩
  obtain ⟨y, hy, hxor⟩ := hmaps z hz
  refine ⟨y, ⟨hy, xor_xor hxor⟩, fun y' hy' => ?_⟩
  exact Except.ok.inj ((xor_xor hy'.2).symm.trans hxor)

/-- Changed by `xor` with `w`, two identifiers still share `k` digits, digit `k`
    of the second is the same, and so is its cell in RT1. -/
def KeepsPlace (w x y : Identifier) (k : Nat) : Prop :=
  ∃ x' y', x.xor w = .ok x' ∧ y.xor w = .ok y' ∧ x'.commonPrefix y' = .ok k ∧
    y'.digitBits k = y.digitBits k ∧ ∀ i, IsFirstDifference x y i → IsFirstDifference x' y' i

/-- **A window keeps the place of a peer** whose first difference it leaves
    out. -/
theorem keepsPlace_window (hmask : mask.shape = x.shape) (hs : y.shape = x.shape) {k : Nat}
    (hk : x.commonPrefix y = .ok k) (hlt : k < x.digits) (hstart : k < start) :
    (mask.window start).KeepsPlace x y k := by
  obtain ⟨x', hx', hxshape, -⟩ := exists_xor (y := mask.window start) hmask.symm
  obtain ⟨y', hy', hyshape, -⟩ := exists_xor (y := mask.window start) (hs.trans hmask.symm)
  have hn : y.digits = x.digits := congrArg Shape.digits hs
  have hk' : x'.commonPrefix y' = .ok k := (commonPrefix_xor hx' hy').trans hk
  have hdigit : y'.digitBits k = y.digitBits k := digitBits_xor_window hy' hstart (by omega)
  refine ⟨x', y', hx', hy', hk', hdigit, ?_⟩
  rintro i ⟨k₀, hk₀, hlt₀, hlevel, hcolumn⟩
  obtain rfl : k = k₀ := Except.ok.inj (hk.symm.trans hk₀)
  have hn' : x'.digits = x.digits := congrArg Shape.digits hxshape
  exact ⟨k, hk', by rw [hn']; exact hlt, by rw [hn']; exact hlevel,
    (digitNat_congr hyshape hdigit).trans hcolumn⟩

end Identifier

/-! ## One decision under two masks -/

/-- The distance of two identifiers after both were changed by `xor` with
    `w`. -/
def IsMaskedDistance (m : Metric) (w x y : Identifier) (d : Binary64) : Prop :=
  ∃ x' y', x.xor w = .ok x' ∧ y.xor w = .ok y' ∧ m.measure x' y' = .ok d

theorem isMaskedDistance_of_maskedDistance {m : Metric} {w x y : Identifier} {d : Binary64}
    (h : maskedDistance m w x y = .ok d) : IsMaskedDistance m w x y d := by
  obtain ⟨x', hx, h⟩ := bind_eq_ok h
  obtain ⟨y', hy, h⟩ := bind_eq_ok h
  exact ⟨x', y', hx, hy, h⟩

namespace Offer

variable {o : Offer} {mask mask' : Identifier}

/-- **What the peers are ranked by**: their distances to the node after all were
    changed by the windowed mask. -/
theorem isMaskedDistance_of_maskedDistances {m : Metric} {own : Binary64} {scores : List Binary64}
    (h : o.maskedDistances m mask = .ok (own, scores)) :
    IsMaskedDistance m (mask.window (o.candidate.self.digits - o.slot.index.level))
        o.candidate.self o.candidate.node.id own ∧
      List.Forall₂ (fun e d => IsMaskedDistance m
        (mask.window (o.candidate.self.digits - o.slot.index.level)) o.candidate.self e.node.id d)
        o.members scores := by
  obtain ⟨_, hown, h⟩ := bind_eq_ok h
  obtain ⟨_, hscores, h⟩ := bind_eq_ok h
  cases h
  exact ⟨isMaskedDistance_of_maskedDistance hown,
    (forall₂_of_mapM_ok hscores).imp fun _ _ => isMaskedDistance_of_maskedDistance⟩

section
variable (hs : mask.shape = mask'.shape)
  (h : mask.AgreesFrom mask' (o.candidate.self.digits - o.slot.index.level))
include hs h

theorem maskedDistances_eq (m : Metric) :
    o.maskedDistances m mask = o.maskedDistances m mask' := by
  simp only [maskedDistances, h.window_eq hs]

theorem maskedMove_eq (m : Metric) : o.maskedMove m mask = o.maskedMove m mask' := by
  simp only [maskedMove, maskedVictim?, maskedDistances_eq hs h m]

end

/-- **The move depends on the mask in the last digits only.** -/
theorem secureMove_eq {s s' : MaskState}
    (h : (s.current o.candidate.self.shape).1.AgreesFrom (s'.current o.candidate.self.shape).1
      (o.candidate.self.digits - o.slot.index.level)) (m : Metric) (interval interval' : Nat) :
    (o.secureMove m interval s).1 = (o.secureMove m interval' s').1 := by
  cases hfull : o.isFull with
  | false =>
    simp only [secureMove, hfull, Bool.not_false, if_true]
    split <;> rfl
  | true =>
    have hs : (s.current o.candidate.self.shape).1.shape =
        (s'.current o.candidate.self.shape).1.shape := by
      rw [MaskState.shape_current, MaskState.shape_current]
    rw [MaskState.secureMove_of_full m interval s hfull,
      MaskState.secureMove_of_full m interval' s' hfull]
    exact maskedMove_eq hs h m

end Offer

/-! ## Two runs -/

/-- A candidate for a slot of a table of a shelf. -/
structure Call where
  kind : TableKind
  index : SlotIndex
  candidate : Candidate

/-- A shelf after calls one after the other, and what came of them. -/
def Shelf.serve (s : Shelf) : List Call → Shelf × List Placement
  | [] => (s, [])
  | c :: calls =>
    let (s, placement) := s.offer c.kind c.index c.candidate
    let (s, placements) := s.serve calls
    (s, placement :: placements)

namespace MaskState

variable {shape : Shape} {start : Nat} {s s' : MaskState}

/-- Two states whose masks agree in digit `start` and all later ones, now and
    when new ones are drawn. -/
structure Agrees (shape : Shape) (start : Nat) (s s' : MaskState) : Prop where
  admissions : s.admissions = s'.admissions
  stream : ∀ j, (s.stream.mask shape j).AgreesFrom (s'.stream.mask shape j) start
  mask : Option.Rel (fun mask mask' => mask.shape = shape ∧ mask'.shape = shape ∧
    mask.AgreesFrom mask' start) s.mask s'.mask

namespace Agrees

theorem current (h : Agrees shape start s s') :
    (s.current shape).1.AgreesFrom (s'.current shape).1 start ∧
      Agrees shape start (s.current shape).2 (s'.current shape).2 := by
  obtain ⟨stream, mask, admissions⟩ := s
  obtain ⟨stream', mask', admissions'⟩ := s'
  obtain ⟨hadmissions, hstream, hmask⟩ := h
  dsimp only at hadmissions hstream hmask
  cases hmask with
  | none =>
    rw [current_of_none rfl, current_of_none rfl]
    refine ⟨hstream 0, hadmissions, fun j => ?_, .some ⟨rfl, rfl, hstream 0⟩⟩
    have hnext := hstream (1 + j)
    rw [← WordStream.mask_skip, ← WordStream.mask_skip, Nat.one_mul] at hnext
    exact hnext
  | some hrel =>
    rw [current_of_some rfl hrel.1, current_of_some rfl hrel.2.1]
    exact ⟨hrel.2.2, hadmissions, hstream, .some hrel⟩

theorem recordAdmission (h : Agrees shape start s s') (interval : Nat) :
    Agrees shape start (s.recordAdmission interval) (s'.recordAdmission interval) := by
  refine ⟨congrArg (· + 1) h.admissions, h.stream, ?_⟩
  simp only [MaskState.recordAdmission, h.admissions]
  split
  · exact .none
  · exact h.mask

/-- Both states decide alike and agree afterwards. -/
theorem secureMove (h : Agrees shape start s s') {o : Offer} (ho : o.candidate.self.shape = shape)
    (hstart : start ≤ o.candidate.self.digits - o.slot.index.level) (m : Metric) (interval : Nat) :
    (o.secureMove m interval s).1 = (o.secureMove m interval s').1 ∧
      Agrees shape start (o.secureMove m interval s).2 (o.secureMove m interval s').2 := by
  obtain ⟨hagree, hnext⟩ := h.current
  have hmove : (o.secureMove m interval s).1 = (o.secureMove m interval s').1 := by
    refine Offer.secureMove_eq ?_ m interval interval
    rw [ho]
    exact hagree.mono hstart
  refine ⟨hmove, ?_⟩
  cases hfull : o.isFull with
  | false =>
    simp only [Offer.secureMove, hfull, Bool.not_false, if_true]
    split
    · exact h
    · exact h.recordAdmission interval
  | true =>
    rw [secureMove_of_full m interval s hfull, secureMove_of_full m interval s' hfull] at hmove ⊢
    dsimp only at hmove ⊢
    rw [hmove, ho]
    split
    · exact hnext
    · exact hnext.recordAdmission interval

theorem offer (h : Agrees shape start s s') (t : SubTable) {candidate : Candidate} {i : SlotIndex}
    (hself : candidate.self.shape = shape) (hstart : start ≤ candidate.self.digits - i.level)
    (m : Metric) (interval : Nat) : ∃ t₁ s₁ s₁' answer,
      t.offer (.secure m interval s) candidate i = (t₁, .secure m interval s₁, answer) ∧
      t.offer (.secure m interval s') candidate i = (t₁, .secure m interval s₁', answer) ∧
      Agrees shape start s₁ s₁' := by
  obtain ⟨hmove, hnext⟩ := h.secureMove (o := t.offerOf candidate i) hself hstart m interval
  rw [t.offer_secure, t.offer_secure, hmove]
  exact ⟨_, _, _, _, rfl, rfl, hnext⟩

/-- **Two runs under masks that agree do the same**: the calls are those of one
    node for slots up to a level. -/
theorem serve {self : Identifier} {level : Nat} {calls : List Call} (m : Metric) (interval : Nat)
    (hcalls : ∀ c ∈ calls, c.candidate.self = self ∧ c.index.level ≤ level) (t : RoutingTable)
    (h : Agrees self.shape (self.digits - level) s s') :
    (Shelf.serve ⟨t, .secure m interval s⟩ calls).1.tables =
        (Shelf.serve ⟨t, .secure m interval s'⟩ calls).1.tables ∧
      (Shelf.serve ⟨t, .secure m interval s⟩ calls).2 =
        (Shelf.serve ⟨t, .secure m interval s'⟩ calls).2 := by
  induction calls generalizing t s s' with
  | nil => exact ⟨rfl, rfl⟩
  | cons c calls ih =>
    have hrest := fun c' hc' => hcalls c' (List.mem_cons_of_mem c hc')
    obtain ⟨rfl, hlevel⟩ := hcalls c List.mem_cons_self
    simp only [Shelf.serve, Shelf.offer]
    split
    · obtain ⟨htables, hplacements⟩ := ih hrest t h
      exact ⟨htables, congrArg _ hplacements⟩
    · obtain ⟨t₁, s₁, s₁', answer, hrun, hrun', hnext⟩ :=
        h.offer (t.get c.kind) rfl (Nat.sub_le_sub_left hlevel _) m interval
      rw [hrun, hrun']
      obtain ⟨htables, hplacements⟩ := ih hrest (t.set c.kind t₁) hnext
      exact ⟨htables, congrArg _ hplacements⟩

end Agrees

end MaskState

/-! ## The mask stays inside the slot -/

/-- What the mask of the secure policy can change in a slot at a level. -/
structure MaskStays (metric : Metric) (x : Identifier) (level : Nat) : Prop where
  /-- The mask is cleared in the digits that the peers share, and only there. -/
  window : ∀ mask : Identifier, mask.shape = x.shape →
    (mask.window (x.digits - level)).shape = x.shape ∧
      ∀ d < x.digits, ∀ c < x.dimensions, (mask.window (x.digits - level)).bit d c =
        if d < x.digits - level then false else mask.bit d c
  /-- Peers are ranked by their distances to the node after all were changed by
      what is left of the mask. -/
  distances : ∀ (o : Offer) (mask : Identifier), o.candidate.self = x →
    o.slot.index.level = level → mask.shape = x.shape → o.candidate.node.id.shape = x.shape →
    (∀ e ∈ o.members, e.node.id.shape = x.shape) →
    ∃ own scores, o.maskedDistances metric mask = .ok (own, scores) ∧
      IsMaskedDistance metric (mask.window (x.digits - level)) x o.candidate.node.id own ∧
      List.Forall₂ (fun e d =>
        IsMaskedDistance metric (mask.window (x.digits - level)) x e.node.id d) o.members scores
  /-- Masks that agree in the last digits give one ranking, -/
  ranking : ∀ (o : Offer) (mask mask' : Identifier), o.candidate.self = x →
    o.slot.index.level = level → mask.shape = x.shape → mask'.shape = x.shape →
    mask.AgreesFrom mask' (x.digits - level) →
    o.maskedDistances metric mask = o.maskedDistances metric mask'
  /-- one decision, -/
  decision : ∀ (t : SubTable) (candidate : Candidate) (i : SlotIndex) (s s' : MaskState)
    (interval interval' : Nat), candidate.self = x → i.level = level →
    (level = 0 ∨ (s.current x.shape).1.AgreesFrom (s'.current x.shape).1 (x.digits - level)) →
    (t.offer (.secure metric interval s) candidate i).1 =
        (t.offer (.secure metric interval' s') candidate i).1 ∧
      (t.offer (.secure metric interval s) candidate i).2.2 =
        (t.offer (.secure metric interval' s') candidate i).2.2
  /-- and one run. -/
  run : ∀ (t : RoutingTable) (calls : List Call) (interval : Nat) (stream stream' : WordStream),
    (∀ c ∈ calls, c.candidate.self = x ∧ c.index.level ≤ level) →
    (level = 0 ∨
      ∀ j, (stream.mask x.shape j).AgreesFrom (stream'.mask x.shape j) (x.digits - level)) →
    (Shelf.serve ⟨t, .secure metric interval (.start stream)⟩ calls).1.tables =
        (Shelf.serve ⟨t, .secure metric interval (.start stream')⟩ calls).1.tables ∧
      (Shelf.serve ⟨t, .secure metric interval (.start stream)⟩ calls).2 =
        (Shelf.serve ⟨t, .secure metric interval (.start stream')⟩ calls).2
  /-- A mask permutes the identifiers with the first digits of the slot, -/
  permutes : ∀ mask y : Identifier, mask.shape = x.shape → y.shape = x.shape →
    (mask.window (x.digits - level)).Permutes (y.cube (x.digits - level))
  /-- and keeps the place of the peers whose RT1 level it is, -/
  place : ∀ (mask peer : Identifier) (k : Nat), mask.shape = x.shape → peer.shape = x.shape →
    x.commonPrefix peer = .ok k → k < x.digits → level = x.digits - 1 - k →
    (mask.window (x.digits - level)).KeepsPlace x peer k
  /-- such as the members of the slots of RT1. -/
  members : ∀ (key : Identifier → UInt64) (c : Config) (s : Service) (mask : Identifier),
    Reachable key c x s → mask.shape = x.shape → ∀ kind ∈ [TableKind.rt1, .secRt1], ∀ i,
    i.level = level → ∀ e ∈ (s.tables.get kind).slot i,
      ∃ k, x.commonPrefix e.node.id = .ok k ∧
        (mask.window (x.digits - level)).KeepsPlace x e.node.id k

/-- **The mask of the secure policy stays inside the slot.** -/
theorem Policy.secure_mask_stays (metric : Metric) (self : Identifier) (level : Nat) :
    MaskStays metric self level where
  window := by
    intro mask hmask
    refine ⟨hmask, fun d hd c hc => ?_⟩
    have hD : mask.dimensions = self.dimensions := congrArg Shape.dimensions hmask
    have hn : mask.digits = self.digits := congrArg Shape.digits hmask
    rw [Identifier.bit_window mask _ (by rwa [hn]) (by rwa [hD])]
    by_cases hshared : d < self.digits - level
    · rw [if_pos hshared, decide_eq_false (Nat.not_le.2 hshared), Bool.false_and]
    · rw [if_neg hshared, decide_eq_true (Nat.not_lt.1 hshared), Bool.true_and]
  distances := by
    rintro o mask rfl rfl hmask hcandidate hmembers
    obtain ⟨⟨own, scores⟩, h⟩ := o.exists_maskedDistances metric hmask hcandidate hmembers
    obtain ⟨hown, hscores⟩ := Offer.isMaskedDistance_of_maskedDistances h
    exact ⟨own, scores, h, hown, hscores⟩
  ranking := by
    rintro o mask mask' rfl rfl hmask hmask' hagree
    exact Offer.maskedDistances_eq (hmask.trans hmask'.symm) hagree metric
  decision := by
    rintro t candidate i s s' interval interval' rfl rfl hagree
    have hmove : ((t.offerOf candidate i).secureMove metric interval s).1 =
        ((t.offerOf candidate i).secureMove metric interval' s').1 := by
      refine Offer.secureMove_eq (hagree.elim (fun hzero => ?_) id) metric interval interval'
      have hle : (s.current candidate.self.shape).1.digits ≤ candidate.self.digits - i.level := by
        rw [hzero]
        exact Nat.le_of_eq (congrArg Shape.digits (s.shape_current _))
      exact Identifier.agreesFrom_of_digits_le hle _
    rw [t.offer_secure, t.offer_secure, hmove]
    exact ⟨rfl, rfl⟩
  run := by
    intro t calls interval stream stream' hcalls hagree
    refine MaskState.Agrees.serve metric interval hcalls t ⟨rfl, ?_, .none⟩
    refine hagree.elim (fun hzero j => Identifier.agreesFrom_of_digits_le ?_ _) id
    rw [hzero]
    exact Nat.le_refl _
  permutes := by
    intro mask x hmask hx
    have hn : x.digits = self.digits := congrArg Shape.digits hx
    exact Identifier.permutes_cube (hmask.trans hx.symm) (by omega)
  place := by
    intro mask peer k hmask hpeer hk hlt hlevel
    exact Identifier.keepsPlace_window hmask hpeer hk hlt (by omega)
  members := by
    rintro key c s mask hs hmask kind hkind i rfl e he
    obtain ⟨k, hk, hlt, hlevel, -⟩ := hs.invariant.isFirstDifference hkind he
    have hpeer := (hs.invariant.inPlace kind e (SubTable.mem_entries.2 ⟨i, he⟩)).shape
    exact ⟨k, hk, Identifier.keepsPlace_window hmask hpeer hk hlt (by omega)⟩

/-- Two seeds whose masks differ in digit 1 and agree in digits 2 and 3.  Under
    both, a peer takes the place of a closer one in a slot at level 2, which it
    does not without a mask.  In a slot at level 0 two seeds do the same whose
    masks do not agree. -/
theorem secure_mask_stays_last_digits :
    let mask (seed : UInt64) : Identifier := (WordStream.ofSeed seed).mask (.mk 2 4) 0
    (mask 3 ≠ mask 4 ∧ (mask 3).AgreesFrom (mask 4) 2 ∧ (mask 3).window 2 ≠ .zero (.mk 2 4)) ∧
    (∃ (t : SubTable) (candidate : Candidate) (i : SlotIndex), i.level = 2 ∧
      (∀ seed ∈ [3, 4], (t.offer (.secure .manhattan 2 (.start (.ofSeed seed))) candidate i).2.2 =
        .replaced 4) ∧
      (t.offer (.secure .manhattan 2 ⟨.ofSeed 3, some (.zero (.mk 2 4)), 0⟩) candidate i).2.2 =
        .declined) ∧
    mask 1 ≠ mask 2 ∧
    ∃ (t : RoutingTable) (calls : List Call) (i : SlotIndex), i.level = 0 ∧
      ∀ seed ∈ [1, 2], (Shelf.serve ⟨t, .secure .manhattan 2 (.start (.ofSeed seed))⟩ calls).2 =
        [.considered i .admitted, .considered i (.replaced 3), .considered i .declined] := by
  intro mask
  let self : Identifier := .zero (.mk 2 4)
  let candidate (k : Nat) : Candidate :=
    ⟨⟨.ofFn (.mk 2 4) k.testBit, "10.0.0.1:7000", UInt64.ofNat k⟩, self, 0, ⟨0, by decide⟩⟩
  have hmask : ∀ {s w : UInt64}, (WordStream.ofSeed s).word 0 = w →
      mask s = .ofFn (.mk 2 4) w.toNat.testBit := by
    rintro s w rfl
    refine Identifier.ofFn_congr fun i (hi : i < 8) => ?_
    have hword : 0 * (Shape.mk 2 4).blockLength + i / 64 = 0 := by omega
    rw [hword, Nat.mod_eq_of_lt (by omega)]
    rfl
  have h₃ : mask 3 = _ := hmask (w := 1756299670138968556) (by decide +kernel)
  have h₄ : mask 4 = _ := hmask (w := 9832173440612459492) (by decide +kernel)
  have hagree : (mask 3).AgreesFrom (mask 4) 2 := by
    have hdigits : ∀ d < 4, 2 ≤ d → (mask 3).digitBits d = (mask 4).digitBits d := by
      rw [h₃, h₄]
      decide +kernel
    exact fun d hd hlt => hdigits d hlt hd
  refine ⟨⟨?_, hagree, ?_⟩, ?_, ?_, ?_⟩
  · rw [h₃, h₄]
    decide +kernel
  · rw [h₃]
    decide +kernel
  · let room : SubTable := .empty .secRt1 4 4 1
    let t : SubTable := room.insert 0 (room.entryOf (candidate 4) ⟨2, 1⟩)
    have hseed : (t.offer (.secure .manhattan 2 (.start (.ofSeed 3))) (candidate 68) ⟨2, 1⟩).2.2 =
        .replaced 4 := by decide +kernel
    have hcurrent : ∀ seed, ((MaskState.start (.ofSeed seed)).current (.mk 2 4)).1 = mask seed :=
      fun seed => congrArg Prod.fst (MaskState.current_of_none rfl _)
    have hsame := (Policy.secure_mask_stays .manhattan self 2).decision t (candidate 68) ⟨2, 1⟩
      (.start (.ofSeed 3)) (.start (.ofSeed 4)) 2 2 rfl rfl
      (Or.inr (by rwa [← hcurrent 3, ← hcurrent 4] at hagree))
    refine ⟨t, candidate 68, ⟨2, 1⟩, rfl, ?_, by decide +kernel⟩
    exact List.forall_mem_cons.2 ⟨hseed, List.forall_mem_singleton.2 (hsame.2.symm.trans hseed)⟩
  · rw [hmask (w := 17971643333364160609) (by decide +kernel),
      hmask (w := 5484693513881304607) (by decide +kernel)]
    decide +kernel
  · let t : RoutingTable := .ofConfig { Config.small with slotSize := 1 }
    let calls : List Call := [3, 5, 4].map fun k =>
      ⟨.secRt1, ⟨0, 1⟩, ⟨⟨.ofFn (.mk 2 4) (· == k), "10.0.0.1:7000", UInt64.ofNat k⟩, self, 0,
        ⟨0, by decide⟩⟩⟩
    have hseed : (Shelf.serve ⟨t, .secure .manhattan 2 (.start (.ofSeed 1))⟩ calls).2 =
        [.considered ⟨0, 1⟩ .admitted, .considered ⟨0, 1⟩ (.replaced 3),
          .considered ⟨0, 1⟩ .declined] := by
      decide +kernel
    have hsame := (Policy.secure_mask_stays .manhattan self 0).run t calls 2 (.ofSeed 1)
      (.ofSeed 2) (by decide) (Or.inl rfl)
    refine ⟨t, calls, ⟨0, 1⟩, rfl, ?_⟩
    exact List.forall_mem_cons.2 ⟨hseed, List.forall_mem_singleton.2 (hsame.2.symm.trans hseed)⟩

end CubeRouting
