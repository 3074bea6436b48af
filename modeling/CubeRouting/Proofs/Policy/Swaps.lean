/-
  The evenness objective of a set of peers, and swaps of one of them.

  The policy updates two sums for each swap.  Without rounding, and whatever
  powers are, this gives the objective of the peers after the swap.

  * `pairTotal_perm`, `pairTotal_set`: the sum of the distances of all pairs does
    not depend on the order of the peers, and what a swap does to it;
  * `sum_rowsOf`, `sum_getElem_rowsOf`: the sums of a matrix of distances;
  * `swapObjectives_eq`, `objective_eq`: the objectives of the policy are those
    of the sets of peers;
  * `victim?_eq_some_iff`: the swap that the policy makes.
-/
import CubeRouting.Proofs.Policy.Distance
import CubeRouting.Proofs.Policy.Faults
import CubeRouting.Proofs.Torus.Metrics

namespace CubeRouting

namespace Evenness

/-! ## Pairs -/

section
variable {α M : Type}

/-- The sum of `d` over all pairs of members of a list, each pair taken once. -/
def pairTotal [AddCommMonoid M] (d : α → α → M) : List α → M
  | [] => 0
  | a :: rest => (rest.map (d a)).sum + pairTotal d rest

variable {l l' : List α} {d : α → α → M}

/-- **The sum over all pairs does not depend on their order.** -/
theorem pairTotal_perm [AddCommMonoid M] (h : l.Perm l')
    (hsymm : ∀ a ∈ l, ∀ b ∈ l, d a b = d b a) : pairTotal d l = pairTotal d l' := by
  induction h with
  | nil => rfl
  | cons a h ih =>
    have hrest := ih fun a ha b hb =>
      hsymm a (List.mem_cons_of_mem _ ha) b (List.mem_cons_of_mem _ hb)
    rw [pairTotal, pairTotal, hrest, (h.map (d a)).sum_eq]
  | swap a b l =>
    have hab := hsymm a (by simp) b (by simp)
    simp only [pairTotal, List.map_cons, List.sum_cons, hab]
    ac_rfl
  | trans h _ ih ih' =>
    rw [ih hsymm, ih' fun a ha b hb => hsymm a (h.mem_iff.2 ha) b (h.mem_iff.2 hb)]

variable [AddCommGroup M]

/-- **What a swap does to the sum over all pairs**: the pairs with the member
    that goes are replaced by those with the one that comes. -/
theorem pairTotal_set {c : α} {i : Nat} (hi : i < l.length)
    (hsymm : ∀ a ∈ c :: l, ∀ b ∈ c :: l, d a b = d b a) :
    pairTotal d (l.set i c) = pairTotal d l - ((l.eraseIdx i).map (d l[i])).sum +
      ((l.eraseIdx i).map (d c)).sum := by
  have hold := pairTotal_perm (d := d) (List.getElem_cons_eraseIdx_perm hi).symm
    fun a ha b hb => hsymm a (List.mem_cons_of_mem _ ha) b (List.mem_cons_of_mem _ hb)
  have hset : ∀ a ∈ l.set i c, a ∈ c :: l := fun a ha => by
    rcases List.mem_or_eq_of_mem_set ha with ha | rfl
    · exact List.mem_cons_of_mem _ ha
    · exact List.mem_cons_self
  have hnew := pairTotal_perm (d := d) (List.set_perm_cons_eraseIdx hi c)
    fun a ha b hb => hsymm a (hset a ha) b (hset b hb)
  rw [hold, hnew, pairTotal, pairTotal]
  abel

/-- What a swap does to a sum over the members. -/
theorem sum_map_set {f : α → M} {c : α} {i : Nat} (hi : i < l.length) :
    ((l.set i c).map f).sum = (l.map f).sum - f l[i] + f c := by
  have hold := ((List.getElem_cons_eraseIdx_perm hi).symm.map f).sum_eq
  have hnew := ((List.set_perm_cons_eraseIdx hi c).map f).sum_eq
  rw [hold, hnew, List.map_cons, List.map_cons, List.sum_cons, List.sum_cons]
  abel

/-! ## Matrices of distances -/

/-- The matrix of `d` on a list, with zeros on its diagonal. -/
def rowsOf (d : α → α → M) (l : List α) : List (List M) :=
  l.zipIdx.map fun (a, i) => l.zipIdx.map fun (b, j) => if i = j then 0 else d a b

/-- The members after a position, by their numbers. -/
theorem map_zipIdx_of_lt {f : α → M} {i k : Nat} (h : i < k) :
    (l.zipIdx k).map (fun (b, j) => if i = j then 0 else f b) = l.map f := by
  have hne : ∀ x ∈ l.zipIdx k, (if i = x.2 then 0 else f x.1) = f x.1 := fun x hx =>
    if_neg (Nat.ne_of_lt (h.trans_le (List.le_snd_of_mem_zipIdx hx)))
  rw [List.map_congr_left hne, ← Function.comp_def f, ← List.map_map, List.zipIdx_map_fst]

/-- A row without its zero. -/
theorem sum_map_zipIdx (f : α → M) (l : List α) (i k : Nat) :
    ((l.zipIdx k).map fun (b, j) => if k + i = j then 0 else f b).sum =
      ((l.eraseIdx i).map f).sum := by
  induction l generalizing i k with
  | nil => rfl
  | cons b l ih =>
    cases i with
    | zero => simp [map_zipIdx_of_lt (Nat.lt_succ_self k)]
    | succ i =>
      have hrest := ih i (k + 1)
      rw [Nat.add_right_comm, Nat.add_assoc] at hrest
      rw [List.zipIdx_cons, List.map_cons, List.sum_cons, hrest]
      simp

theorem length_rowsOf (d : α → α → M) (l : List α) : (rowsOf d l).length = l.length := by
  simp [rowsOf]

/-- The distances of a member to all others. -/
theorem sum_getElem_rowsOf (d : α → α → M) {i : Nat} (hi : i < l.length)
    (hrow : i < (rowsOf d l).length) :
    (rowsOf d l)[i].sum = ((l.eraseIdx i).map (d l[i])).sum := by
  have hsum := sum_map_zipIdx (d l[i]) l i 0
  simp only [Nat.zero_add] at hsum
  simpa [rowsOf] using hsum

/-- A row after its zero has the distances to the members that come later. -/
theorem drop_row (f : α → M) (l : List α) (i : Nat) :
    (l.zipIdx.map fun (b, j) => if i = j then 0 else f b).drop (i + 1) =
      (l.drop (i + 1)).map f := by
  refine List.ext_getElem (by simp) fun k hk hk' => ?_
  have hne : i ≠ i + 1 + k := by omega
  simp [hne]

/-- Each member before those that come later. -/
theorem sum_flatMap_drop {rest : List α} {k : Nat} (h : l.drop k = rest) :
    ((rest.zipIdx k).flatMap fun (a, i) => (l.drop (i + 1)).map (d a)).sum = pairTotal d rest := by
  induction rest generalizing k with
  | nil => rfl
  | cons a rest ih =>
    have htail : l.drop (k + 1) = rest := by rw [← List.tail_drop, h, List.tail_cons]
    rw [List.zipIdx_cons, List.flatMap_cons, List.sum_append, ih htail, pairTotal]
    dsimp only
    rw [htail]

/-- **The sum above the diagonal** is the sum over all pairs. -/
theorem sum_rowsOf (d : α → α → M) (l : List α) :
    ((rowsOf d l).zipIdx.flatMap fun (row, i) => row.drop (i + 1)).sum = pairTotal d l := by
  have hrows : ((rowsOf d l).zipIdx.flatMap fun (row, i) => row.drop (i + 1)) =
      l.zipIdx.flatMap fun (a, i) => (l.drop (i + 1)).map (d a) := by
    rw [List.flatMap_def, List.flatMap_def]
    congr 1
    refine List.ext_getElem (by simp [rowsOf]) fun i hi hi' => ?_
    simp [rowsOf, drop_row]
  rw [hrows]
  exact sum_flatMap_drop (List.drop_zero ..)

end

/-! ## The objective of a set of peers -/

section
variable {power : ℝ → ℝ → ℝ} {m : Metric} {w : EvennessWeights (Exact power)}
  {points : List (SpreadPoint (Exact power))} {candidate : SpreadPoint (Exact power)}

/-- The distance of two peers. -/
noncomputable def peerDistance (m : Metric) (p q : SpreadPoint (Exact power)) : Exact power :=
  m.between p.id q.id

/-- The objective of a set of peers, from the distances of all pairs and the
    distances to the node. -/
noncomputable def objectiveOf (m : Metric) (w : EvennessWeights (Exact power))
    (points : List (SpreadPoint (Exact power))) : Exact power :=
  w.objective (pairTotal (peerDistance m) points) (points.map (·.distance)).sum points.length

theorem peerDistance_chebyshev (p q : SpreadPoint (Exact power)) (hs : p.id.shape = q.id.shape) :
    peerDistance .chebyshev p q = ((Finset.range p.id.dimensions).sup (p.id.axisGap q.id) : Nat) :=
  Metric.chebyshev_real hs

/-- The objective of two peers. -/
theorem objectiveOf_pair (m : Metric) (w : EvennessWeights (Exact power))
    (p q : SpreadPoint (Exact power)) : objectiveOf m w [p, q] =
      w.w1 * Scalar.pow (peerDistance m p q) w.k1 +
        w.w2 * Scalar.pow ((p.distance + q.distance) / 2) w.k2 := by
  have hone : (Scalar.ofNat 1 : Exact power) = 1 := Nat.cast_one
  have htwo : (Scalar.ofNat 2 : Exact power) = 2 := Nat.cast_ofNat
  have hpairs : pairTotal (peerDistance m) [p, q] = peerDistance m p q := by simp [pairTotal]
  have hself : ([p, q].map (·.distance)).sum = p.distance + q.distance := by simp
  rw [objectiveOf, hpairs, hself]
  simp [EvennessWeights.objective, hone, htwo]

section
variable (hs : ∀ p ∈ points, p.id.shape = candidate.id.shape)
include hs

theorem pairwise_eq : pairwise m points = .ok (rowsOf (peerDistance m) points) := by
  have hshape : ∀ x ∈ points.zipIdx, x.1.id.shape = candidate.id.shape :=
    fun x hx => hs x.1 (List.fst_mem_of_mem_zipIdx hx)
  refine mapM_eq_ok_map fun a ha => mapM_eq_ok_map fun b hb => ?_
  dsimp only
  split
  · rw [Exact.zero_eq]
    rfl
  · exact m.measure_of_shape ((hshape a ha).trans (hshape b hb).symm)

theorem mapM_measure_eq : points.mapM (fun p => m.measure p.id candidate.id) =
    .ok (points.map fun p => peerDistance m p candidate) :=
  mapM_eq_ok_map fun p hp => m.measure_of_shape (hs p hp)

theorem peerDistance_comm : ∀ p ∈ candidate :: points, ∀ q ∈ candidate :: points,
    peerDistance m p q = peerDistance m q p := by
  have hshape : ∀ p ∈ candidate :: points, p.id.shape = candidate.id.shape :=
    List.forall_mem_cons.2 ⟨rfl, hs⟩
  exact fun p hp q hq => m.between_comm ((hshape p hp).trans (hshape q hq).symm)

omit hs in
/-- **The objective of the members as they are.** -/
theorem objective_eq : w.objective (pairSum (rowsOf (peerDistance m) points))
    (Scalar.sum (points.map (·.distance))) points.length = objectiveOf m w points := by
  rw [pairSum, Exact.sum_eq, Exact.sum_eq, sum_rowsOf, objectiveOf]

/-- **The objectives of the swaps** are those of the members after each swap. -/
theorem swapObjectives_eq : swapObjectives w points (rowsOf (peerDistance m) points)
      (points.map fun p => peerDistance m p candidate) candidate.distance =
    (List.range points.length).map fun i => objectiveOf m w (points.set i candidate) := by
  refine List.ext_getElem (by simp [swapObjectives, length_rowsOf]) fun i hi hi' => ?_
  have hlt : i < points.length := by simpa using hi'
  have hrow : i < (rowsOf (peerDistance m) points).length := by rwa [length_rowsOf]
  have hcomm := peerDistance_comm (m := m) hs
  have hgained : (points.eraseIdx i).map (fun p => peerDistance m p candidate) =
      (points.eraseIdx i).map (peerDistance m candidate) :=
    List.map_congr_left fun p hp => hcomm p (List.mem_cons_of_mem _ (List.mem_of_mem_eraseIdx hp))
      candidate List.mem_cons_self
  simp only [swapObjectives, List.getElem_map, List.getElem_zipIdx, List.getElem_zip,
    List.getElem_range, Nat.zero_add, pairSum, Exact.sum_eq, sum_rowsOf,
    sum_getElem_rowsOf _ hlt hrow, List.eraseIdx_map, hgained]
  rw [objectiveOf, pairTotal_set hlt hcomm, sum_map_set hlt, List.length_set]

theorem bestSwap_eq : bestSwap m w points candidate =
    .ok ((firstLeast ((List.range points.length).map fun i =>
      objectiveOf m w (points.set i candidate))).map
        fun (i, swapped) => ⟨i, swapped, objectiveOf m w points⟩) := by
  simp only [bestSwap, pairwise_eq hs, mapM_measure_eq hs, ok_bind, objective_eq,
    swapObjectives_eq hs]
  rfl

end

/-! ## The swap that is made -/

/-- The first of the smallest values of `f` on the numbers below `n`. -/
structure IsFirstLeast (f : Nat → Exact power) (n v : Nat) : Prop where
  lt : v < n
  least : ∀ i < n, f v ≤ f i
  first : ∀ i < v, f v < f i

theorem IsFirstLeast.unique {f : Nat → Exact power} {n v v' : Nat} (h : IsFirstLeast f n v)
    (h' : IsFirstLeast f n v') : v = v' := by
  rcases Nat.lt_trichotomy v v' with hlt | heq | hlt
  · exact absurd (h'.first v hlt) (not_lt.2 (h.least v' h'.lt))
  · exact heq
  · exact absurd (h.first v' hlt) (not_lt.2 (h'.least v h.lt))

theorem firstLeast_eq_some_iff {f : Nat → Exact power} {n v : Nat} {k : Exact power} :
    firstLeast ((List.range n).map f) = some (v, k) ↔ IsFirstLeast f n v ∧ f v = k := by
  have hasymm : ∀ a b : Exact power, Scalar.before a b = true → Scalar.before b a = false :=
    fun a b h => Exact.before_eq_false_iff.2 (Exact.before_iff.1 h).le
  have htrans : ∀ a b c : Exact power, Scalar.before a b = false → Scalar.before b c = false →
      Scalar.before a c = false := fun a b c hab hbc =>
    Exact.before_eq_false_iff.2
      ((Exact.before_eq_false_iff.1 hbc).trans (Exact.before_eq_false_iff.1 hab))
  have hspec : ∀ {v k}, firstLeast ((List.range n).map f) = some (v, k) →
      IsFirstLeast f n v ∧ f v = k := by
    intro v k h
    obtain ⟨hat, hall⟩ := champion_spec hasymm htrans h
    have hfirst := champion_first hasymm htrans h
    obtain ⟨hlt, hv⟩ := List.getElem?_eq_some_iff.1 hat
    have hvn : v < n := by simpa using hlt
    obtain rfl : f v = k := by simpa using hv
    refine ⟨⟨hvn, fun i hi => ?_, fun i hi => ?_⟩, rfl⟩
    · exact Exact.before_eq_false_iff.1 (hall _ (List.mem_map_of_mem (List.mem_range.2 hi)))
    · exact Exact.before_iff.1 (hfirst i hi _ (by simp [hi.trans hvn]))
  refine ⟨hspec, ?_⟩
  rintro ⟨hv, rfl⟩
  cases hleast : firstLeast ((List.range n).map f) with
  | none =>
    have hnil := List.map_eq_nil_iff.1 (champion_eq_none_iff.1 hleast)
    exact absurd hv.lt (by simp [List.range_eq_nil.1 hnil])
  | some best =>
    obtain ⟨v', k⟩ := best
    obtain ⟨hv', rfl⟩ := hspec hleast
    rw [hv.unique hv']

/-- The swap at `v` is the first of those with the smallest objective, and it
    lowers the objective. -/
structure IsBestSwap (m : Metric) (w : EvennessWeights (Exact power))
    (points : List (SpreadPoint (Exact power))) (candidate : SpreadPoint (Exact power))
    (v : Nat) : Prop where
  best : IsFirstLeast (fun i => objectiveOf m w (points.set i candidate)) points.length v
  lowers : objectiveOf m w (points.set v candidate) < objectiveOf m w points

/-- The policy needs the distance of the candidate to each member. -/
theorem shape_of_bestSwap {swap : Option (Swap (Exact power))}
    (h : bestSwap m w points candidate = .ok swap) :
    ∀ p ∈ points, p.id.shape = candidate.id.shape := by
  rw [bestSwap] at h
  obtain ⟨_, -, h⟩ := bind_eq_ok h
  obtain ⟨_, hds, -⟩ := bind_eq_ok h
  intro p hp
  obtain ⟨x, hx⟩ := exists_of_mapM_ok hds p hp
  by_contra hne
  rw [m.measure_error hne] at hx
  cases hx

/-- **The swap that is made** is the best one, if it lowers the objective. -/
theorem victim?_eq_some_iff {v : Nat} : victim? m w points candidate = some v ↔
    (∀ p ∈ points, p.id.shape = candidate.id.shape) ∧ IsBestSwap m w points candidate v := by
  by_cases hs : ∀ p ∈ points, p.id.shape = candidate.id.shape
  · rw [victim?, bestSwap_eq hs]
    cases hleast : firstLeast ((List.range points.length).map fun i =>
        objectiveOf m w (points.set i candidate)) with
    | none =>
      refine iff_of_false (fun h => by cases h) fun h => ?_
      rw [firstLeast_eq_some_iff.2 ⟨h.2.best, rfl⟩] at hleast
      cases hleast
    | some best =>
      obtain ⟨i, k⟩ := best
      obtain ⟨hbest, rfl⟩ := firstLeast_eq_some_iff.1 hleast
      simp only [Option.map_some, Option.ite_none_right_eq_some, Option.some.injEq, Exact.lt_iff]
      constructor
      · rintro ⟨hlowers, rfl⟩
        exact ⟨hs, hbest, hlowers⟩
      · rintro ⟨-, hv⟩
        obtain rfl := hbest.unique hv.best
        exact ⟨hv.lowers, rfl⟩
  · refine iff_of_false (fun h => ?_) fun h => hs h.1
    rw [victim?] at h
    split at h
    · rename_i swap hswap
      exact hs (shape_of_bestSwap hswap)
    · cases h

end

end Evenness

end CubeRouting
