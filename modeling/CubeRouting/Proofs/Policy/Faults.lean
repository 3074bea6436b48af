/-
  Policies that do not fail.

  A policy declines a peer for which a bucket, a distance or a mask cannot be
  computed.  `Policy.Computes` says that all of these exist for an offer.

  * `Config.dimensions_le_of_validate`: which dimensions a valid configuration
    has;
  * `Policy.computes`: under a valid configuration the policy of a table
    computes all that it needs, for peers of the configured shape.
-/
import CubeRouting.Policy
import CubeRouting.Proofs.Torus.Distance

namespace CubeRouting

/-! ## Valid configurations -/

/-- A check that is made under a condition only. -/
theorem guard_eq_ok {ε β : Type} {p : Prop} [Decidable p] {check : Except ε Unit}
    {rest : Except ε β} {b : β} (h : (if p then check >>= fun _ => rest else rest) = .ok b) :
    (p → check = .ok ()) ∧ rest = .ok b := by
  split at h
  · obtain ⟨⟨⟩, hcheck, hrest⟩ := bind_eq_ok h
    exact ⟨fun _ => hcheck, hrest⟩
  · rename_i hp
    exact ⟨fun h => absurd h hp, h⟩

namespace Config

variable {c : Config}

theorem dimensions_le_of_check {feature : NarrowFeature} {limit : Nat}
    (h : c.checkDimensions feature limit = .ok ()) : c.dimensions ≤ limit := by
  by_contra hgt
  rw [checkDimensions, if_pos (Nat.lt_of_not_le hgt)] at h
  cases h

theorem nsSize_pos_of_validate (h : c.validate = .ok ()) : 0 < c.nsSize := by
  rw [validate] at h
  obtain ⟨-, -, h⟩ := bind_eq_ok h
  obtain ⟨_, hns, -⟩ := bind_eq_ok h
  rw [checkCapacity] at hns
  split at hns
  · cases hns
  · rename_i hne
    exact Nat.pos_of_ne_zero hne

/-- **A valid configuration has few dimensions** where digits and orthants have
    numbers. -/
theorem dimensions_le_of_validate (h : c.validate = .ok ()) :
    (c.usesRoutingTables = true → c.dimensions ≤ maxRoutingDimensions) ∧
    (c.useNs = true → c.nsPolicy = .balancedOrthants → c.dimensions ≤ maxOrthantDimensions) := by
  rw [validate] at h
  obtain ⟨-, -, h⟩ := bind_eq_ok h
  obtain ⟨-, -, h⟩ := bind_eq_ok h
  obtain ⟨-, -, h⟩ := bind_eq_ok h
  dsimp only at h
  obtain ⟨-, h⟩ := guard_eq_ok h
  obtain ⟨hrouting, h⟩ := guard_eq_ok h
  obtain ⟨horthants, -⟩ := guard_eq_ok h
  refine ⟨fun huse => dimensions_le_of_check (hrouting huse), fun huse hpolicy => ?_⟩
  exact dimensions_le_of_check (horthants (by rw [huse, hpolicy]; rfl))

end Config

/-! ## What policies compute -/

section
variable {a b : Identifier}

theorem Partition.exists_bucket {p : Partition} (hs : a.shape = b.shape)
    (hD : p = .orthants → a.dimensions ≤ maxOrthantDimensions) : ∃ k, p.bucket a b = .ok k := by
  cases p with
  | orthants =>
    simp only [bucket, orthantNumber, Identifier.checkShape, if_pos hs, ok_bind,
      if_neg (Nat.not_lt.2 (hD rfl))]
    exact ⟨_, rfl⟩
  | semirings =>
    simp only [bucket, semiringNumber, Identifier.checkShape, if_pos hs, ok_bind]
    exact ⟨_, rfl⟩

end

theorem exists_mapM_ok {ε α β : Type} {f : α → Except ε β} :
    ∀ {xs : List α}, (∀ a ∈ xs, ∃ b, f a = .ok b) → ∃ bs, xs.mapM f = .ok bs
  | [], _ => ⟨[], rfl⟩
  | a :: xs, h => by
    obtain ⟨b, hb⟩ := h a List.mem_cons_self
    obtain ⟨bs, hbs⟩ := exists_mapM_ok fun a ha => h a (List.mem_cons_of_mem _ ha)
    exact ⟨b :: bs, by rw [List.mapM_cons, hb, ok_bind, hbs]; rfl⟩

/-- A traversal that succeeds gives one result for each element. -/
theorem forall₂_of_mapM_ok {ε α β : Type} {f : α → Except ε β} {xs : List α} {ys : List β}
    (h : xs.mapM f = .ok ys) : List.Forall₂ (fun x y => f x = .ok y) xs ys := by
  induction xs generalizing ys with
  | nil =>
    cases h
    exact .nil
  | cons x xs ih =>
    rw [List.mapM_cons] at h
    obtain ⟨y, hy, h⟩ := bind_eq_ok h
    obtain ⟨ys, hys, h⟩ := bind_eq_ok h
    cases h
    exact .cons hy (ih hys)

theorem exists_of_mapM_ok {ε α β : Type} {f : α → Except ε β} {xs : List α} {ys : List β}
    (h : xs.mapM f = .ok ys) : ∀ x ∈ xs, ∃ y, f x = .ok y := by
  have hall := forall₂_of_mapM_ok h
  clear h
  induction hall with
  | nil => simp
  | cons hy _ ih => exact List.forall_mem_cons.2 ⟨⟨_, hy⟩, ih⟩

theorem mapM_eq_ok_map {ε α β : Type} {f : α → Except ε β} {g : α → β} :
    ∀ {xs : List α}, (∀ a ∈ xs, f a = .ok (g a)) → xs.mapM f = .ok (xs.map g)
  | [], _ => rfl
  | a :: xs, h => by
    rw [List.mapM_cons, h a List.mem_cons_self, ok_bind,
      mapM_eq_ok_map fun b hb => h b (List.mem_cons_of_mem _ hb)]
    rfl

/-- Distances among identifiers of one shape make a best swap. -/
theorem Evenness.exists_bestSwap (m : Metric) (w : EvennessWeights Binary64) {shape : Shape}
    {points : List (SpreadPoint Binary64)} {candidate : SpreadPoint Binary64}
    (hpoints : ∀ p ∈ points, p.id.shape = shape) (hcandidate : candidate.id.shape = shape) :
    ∃ swap, bestSwap m w points candidate = .ok swap := by
  have hmem : ∀ x ∈ points.zipIdx, x.1.id.shape = shape :=
    fun x hx => hpoints x.1 (List.fst_mem_of_mem_zipIdx hx)
  obtain ⟨rows, hrows⟩ : ∃ rows, pairwise m points = .ok rows := by
    refine exists_mapM_ok fun a ha => exists_mapM_ok fun b hb => ?_
    dsimp only
    split
    · exact ⟨_, rfl⟩
    · exact ⟨_, m.measure_of_shape ((hmem a ha).trans (hmem b hb).symm)⟩
  obtain ⟨toCandidate, hto⟩ : ∃ ds, points.mapM (fun p => m.measure p.id candidate.id) =
      (.ok ds : Except IdentifierError (List Binary64)) := by
    refine exists_mapM_ok fun p hp => ⟨_, m.measure_of_shape ?_⟩
    rw [hpoints p hp, hcandidate]
  exact ⟨_, by simp only [bestSwap, hrows, hto, ok_bind]; rfl⟩

/-! ## Masks -/

theorem MaskState.shape_current (s : MaskState) (shape : Shape) :
    (s.current shape).1.shape = shape := by
  rw [current]
  split
  · split
    · assumption
    · rfl
  · rfl

theorem exists_maskedDistance (m : Metric) {mask self peer : Identifier}
    (hmask : mask.shape = self.shape) (hpeer : peer.shape = self.shape) :
    ∃ x, maskedDistance m mask self peer = .ok x := by
  obtain ⟨a, ha, hashape, -⟩ := Identifier.exists_xor hmask.symm
  obtain ⟨b, hb, hbshape, -⟩ := Identifier.exists_xor (hpeer.trans hmask.symm)
  have hmasked : maskedDistance m mask self peer = m.measure a b := by
    rw [maskedDistance, ha, ok_bind, hb, ok_bind]
  exact ⟨_, hmasked.trans (m.measure_of_shape (by rw [hashape, hbshape, hpeer]))⟩

theorem Offer.exists_maskedDistances (o : Offer) (m : Metric) {mask : Identifier}
    (hmask : mask.shape = o.candidate.self.shape)
    (hcandidate : o.candidate.node.id.shape = o.candidate.self.shape)
    (hmembers : ∀ e ∈ o.members, e.node.id.shape = o.candidate.self.shape) :
    ∃ scores, o.maskedDistances m mask = .ok scores := by
  rw [maskedDistances]
  generalize hwindow : mask.window _ = window
  have hshape : window.shape = o.candidate.self.shape := by
    rw [← hwindow]
    exact hmask
  obtain ⟨own, hown⟩ := exists_maskedDistance m hshape hcandidate
  obtain ⟨scores, hscores⟩ : ∃ scores, o.members.mapM (fun e =>
      maskedDistance m window o.candidate.self e.node.id) = .ok scores :=
    exists_mapM_ok fun e he => exists_maskedDistance m hshape (hmembers e he)
  exact ⟨_, by rw [hown, ok_bind, hscores]; rfl⟩

/-! ## Policies -/

namespace Policy

/-- A policy without what it remembers. -/
def rule : Policy → Policy
  | liveness tunables _ => liveness tunables (.empty tunables)
  | secure metric interval _ => secure metric interval (.start (.ofSeed 0))
  | p => p

/-- **Policies keep to their rules.** -/
theorem rule_decide (p : Policy) (o : Offer) : (p.decide o).2.rule = p.rule := by
  cases p <;> rfl

/-- A policy that remembers nothing is its rule. -/
theorem eq_of_rule {p rule : Policy} (h : p.rule = rule)
    (hliveness : ∀ tunables memory, rule ≠ liveness tunables memory)
    (hsecure : ∀ metric interval masks, rule ≠ secure metric interval masks) : p = rule := by
  cases p with
  | liveness => exact (hliveness _ _ h.symm).elim
  | secure => exact (hsecure _ _ _ h.symm).elim
  | _ => exact h

/-- All that a policy needs for an offer exists: buckets, distances or a
    mask. -/
def Computes (p : Policy) (o : Offer) : Prop :=
  match p with
  | balanced partition => ∀ id ∈ o.candidate.node.id :: o.members.map (·.node.id),
      ∃ b, partition.bucket o.candidate.self id = .ok b
  | evenness metric weights => ∃ swap, Evenness.bestSwap metric weights
      (o.members.map fun e => ⟨e.node.id, e.distance⟩)
      ⟨o.candidate.node.id, o.candidate.distance⟩ = .ok swap
  | secure metric _ state => ∃ scores,
      o.maskedDistances metric (state.current o.candidate.self.shape).1 = .ok scores
  | simple | distance | liveness .. => True

end Policy

/-- The rule by which a configuration fills a table. -/
def Config.ruleOf (c : Config) : TableKind → Policy
  | .ns => (Policy.ofNs c).rule
  | .rt1 | .rt2 => (Policy.ofRt c).rule
  | .secRt1 | .secRt2 => (Policy.ofSecure c (.ofSeed 0)).rule

namespace Policy

variable {c : Config} {kind : TableKind} {p : Policy}

/-- Only the neighborhood set is balanced. -/
theorem ns_of_balanced {partition : Partition} (h : balanced partition = c.ruleOf kind) :
    kind = .ns ∧ (partition = .orthants → c.nsPolicy = .balancedOrthants) := by
  cases kind with
  | ns =>
    refine ⟨rfl, ?_⟩
    rintro rfl
    rw [Config.ruleOf, ofNs] at h
    cases hpolicy : c.nsPolicy with
    | balancedOrthants => rfl
    | _ =>
      rw [hpolicy] at h
      cases h
  | rt1 | rt2 =>
    rw [Config.ruleOf, ofRt] at h
    split at h <;> cases h
  | secRt1 | secRt2 => cases h

/-- **The policy of a table does not fail** on peers of the configured
    shape. -/
theorem computes (hv : c.validate = .ok ()) (hrule : p.rule = c.ruleOf kind)
    (huse : kind = .ns → c.useNs = true) {o : Offer}
    (hself : o.candidate.self.dimensions = c.dimensions)
    (hcandidate : o.candidate.node.id.shape = o.candidate.self.shape)
    (hmembers : ∀ e ∈ o.members, e.node.id.shape = o.candidate.self.shape) : p.Computes o := by
  cases p with
  | balanced partition =>
    obtain ⟨hkind, hpolicy⟩ := ns_of_balanced hrule
    intro id hid
    refine Partition.exists_bucket ?_ fun horthants => ?_
    · rcases List.mem_cons.1 hid with rfl | hid
      · exact hcandidate.symm
      · obtain ⟨e, he, rfl⟩ := List.mem_map.1 hid
        exact (hmembers e he).symm
    · rw [hself]
      exact (Config.dimensions_le_of_validate hv).2 (huse hkind) (hpolicy horthants)
  | evenness metric weights =>
    refine Evenness.exists_bestSwap metric weights (fun p hp => ?_) hcandidate
    obtain ⟨e, he, rfl⟩ := List.mem_map.1 hp
    exact hmembers e he
  | secure metric interval state =>
    exact o.exists_maskedDistances metric (state.shape_current _) hcandidate hmembers
  | simple | distance | liveness => trivial

end Policy

end CubeRouting
