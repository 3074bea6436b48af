/-
  Anchored distances.

  The Steinhaus transform relates a distance to how far its points are from an
  anchor.

  * `steinhausDist_triangle`, `steinhausMetric`: the transform of a metric is a
    metric;
  * `exists_distance_iff`: which identifiers have an anchored distance;
  * `distance_truncate`: only the first digits of the anchor count;
  * `Metric.anchored_metrics`: anchored distances on the torus.
-/
import CubeRouting.Proofs.Identifier.Prefix
import CubeRouting.Proofs.Torus.Metrics

namespace CubeRouting

open Identifier

/-! ## The transform of a metric -/

theorem steinhaus_real (ab ap bp : ℝ) : steinhaus ab ap bp = 2 * ab / (ap + bp + ab) := by
  change ((2 : Nat) : ℝ) * ab / (ap + bp + ab) = _
  rw [Nat.cast_ofNat]

section
variable {α : Type} [MetricSpace α] (p a b c : α)

/-- The transformed distance of two points. -/
noncomputable def steinhausDist : ℝ := steinhaus (dist a b) (dist a p) (dist b p)

theorem steinhausDist_eq :
    steinhausDist p a b = 2 * dist a b / (dist a p + dist b p + dist a b) := steinhaus_real _ _ _

/-- **The transform does not divide by zero** for different points. -/
theorem steinhaus_denominator_pos {a b : α} (h : a ≠ b) :
    0 < dist a p + dist b p + dist a b := by
  have hab := dist_pos.2 h
  have hap := dist_nonneg (x := a) (y := p)
  have hbp := dist_nonneg (x := b) (y := p)
  linarith

theorem steinhausDist_self : steinhausDist p a a = 0 := by
  rw [steinhausDist_eq, dist_self, mul_zero, zero_div]

theorem steinhausDist_comm : steinhausDist p a b = steinhausDist p b a := by
  rw [steinhausDist_eq, steinhausDist_eq, dist_comm b a, add_comm (dist b p)]

theorem steinhausDist_nonneg : 0 ≤ steinhausDist p a b := by
  rw [steinhausDist_eq]
  positivity

/-- Points are not farther apart than the way through the anchor. -/
theorem steinhausDist_le_one : steinhausDist p a b ≤ 1 := by
  have hanchor := dist_triangle_right a b p
  rw [steinhausDist_eq]
  exact div_le_one_of_le₀ (by linarith) (by positivity)

theorem eq_of_steinhausDist_eq_zero {a b : α} (h : steinhausDist p a b = 0) : a = b := by
  by_contra hne
  have hpos := steinhaus_denominator_pos p hne
  have hab := dist_pos.2 hne
  rw [steinhausDist_eq] at h
  exact absurd h (by positivity)

/-- **Triangle inequality** of the transform.  A detour lengthens the distance
    in the numerator and in the denominator, which makes the quotient larger,
    and the denominators of its two parts are smaller. -/
theorem steinhausDist_triangle :
    steinhausDist p a c ≤ steinhausDist p a b + steinhausDist p b c := by
  rcases eq_or_ne a b with rfl | hab
  · rw [steinhausDist_self, zero_add]
  rcases eq_or_ne b c with rfl | hbc
  · rw [steinhausDist_self, add_zero]
  rcases eq_or_ne a c with rfl | hac
  · rw [steinhausDist_self]
    exact add_nonneg (steinhausDist_nonneg ..) (steinhausDist_nonneg ..)
  have hpos := steinhaus_denominator_pos p hac
  have hpos₁ := steinhaus_denominator_pos p hab
  have hpos₂ := steinhaus_denominator_pos p hbc
  have hdetour := dist_triangle a b c
  have hap := dist_triangle_left b p a
  have hcp := dist_triangle b c p
  simp only [steinhausDist_eq]
  calc 2 * dist a c / (dist a p + dist c p + dist a c)
      ≤ 2 * (dist a b + dist b c) / (dist a p + dist c p + (dist a b + dist b c)) := by
        have hsides : 0 ≤ dist a p + dist c p := by positivity
        have hscaled := mul_le_mul_of_nonneg_right hdetour hsides
        rw [div_le_div_iff₀ hpos (by linarith)]
        linarith
    _ = 2 * dist a b / (dist a p + dist c p + (dist a b + dist b c)) +
          2 * dist b c / (dist a p + dist c p + (dist a b + dist b c)) := by rw [mul_add, add_div]
    _ ≤ _ := by
        refine add_le_add ?_ ?_
        · exact div_le_div_of_nonneg_left (by positivity) hpos₁ (by linarith)
        · exact div_le_div_of_nonneg_left (by positivity) hpos₂ (by linarith)

/-- At distance zero the transform need not be taken. -/
theorem ite_steinhaus : (if !Scalar.lt Scalar.zero (dist a b) then Scalar.zero
    else steinhaus (dist a b) (dist a p) (dist b p)) = steinhausDist p a b := by
  split
  · rename_i hzero
    have hnot : ¬(0 : ℝ) < dist a b := by
      rw [← Scalar.lt_real, ← Scalar.zero_real]
      simpa using hzero
    obtain rfl : a = b := dist_le_zero.1 (not_lt.1 hnot)
    rw [steinhausDist_self, Scalar.zero_real]
  · rfl

/-- **The transform of a metric is a metric.** -/
@[reducible] noncomputable def steinhausMetric : MetricSpace α where
  dist := steinhausDist p
  dist_self := steinhausDist_self p
  dist_comm := steinhausDist_comm p
  dist_triangle := steinhausDist_triangle p
  eq_of_dist_eq_zero := eq_of_steinhausDist_eq_zero p

end

/-! ## The anchor -/

section
variable {a b p p' : Identifier} {k : Nat}

/-- An anchor of the right dimensions is cut to the digits of the points. -/
theorem fitAnchor_eq_truncate (hD : p.dimensions = a.dimensions) (hn : a.digits ≤ p.digits) :
    fitAnchor a p = p.truncate a.digits := by
  rw [fitAnchor]
  split
  · rfl
  · rename_i h
    have heq : a.digits = p.digits := le_antisymm hn (not_lt.1 fun hlt => h ⟨hlt, hD⟩)
    rw [heq, truncate_self]

/-- The first digits of an anchor that has the dimensions of `a` and at least
    as many digits. -/
theorem exists_anchor (hD : p.dimensions = a.dimensions) (hn : a.digits ≤ p.digits) :
    ∃ p', p.truncate a.digits = .ok p' ∧ p'.shape = a.shape := by
  obtain ⟨p', hp', hD', hn', -⟩ := exists_truncate p a.digits_pos hn
  exact ⟨p', hp', Shape.ext_extents (hD'.trans hD) hn'⟩

/-- **Anchored distances by the first digits of the anchor.** -/
theorem distance_eq {R : Type} [Scalar R] (m : Metric) (hs : a.shape = b.shape)
    (hD : p.dimensions = a.dimensions) (hn : a.digits ≤ p.digits)
    (hp' : p.truncate a.digits = .ok p') (hs' : p'.shape = a.shape) :
    distance m a b (some p) = .ok (if !Scalar.lt Scalar.zero (m.between a b : R) then Scalar.zero
      else steinhaus (m.between a b) (m.between a p') (m.between b p') : R) := by
  have hcheck : checkShape a p' = .ok () := if_pos hs'.symm
  simp only [distance, m.measure_of_shape hs, ok_bind, fitAnchor_eq_truncate hD hn, hp', hcheck,
    m.measure_of_shape hs'.symm, m.measure_of_shape (hs.symm.trans hs'.symm)]
  split <;> rfl

/-- The anchored distance is that of the anchor cut to the digits of the
    points. -/
theorem distance_truncate {R : Type} [Scalar R] (m : Metric) (hs : a.shape = b.shape)
    (hD : p.dimensions = a.dimensions) (hn : a.digits ≤ p.digits)
    (hp' : p.truncate a.digits = .ok p') (hs' : p'.shape = a.shape) :
    (distance m a b (some p) : Except IdentifierError R) = distance m a b (some p') := by
  have hdigits : p'.digits = a.digits := congrArg Shape.digits hs'
  have hself : p'.truncate a.digits = .ok p' := hdigits ▸ truncate_self p'
  rw [distance_eq m hs hD hn hp' hs',
    distance_eq m hs (congrArg Shape.dimensions hs') hdigits.ge hself hs']

/-- An anchor of other dimensions or of fewer digits does not fit. -/
theorem distance_error {R : Type} [Scalar R] (m : Metric) (hs : a.shape = b.shape)
    (h : ¬(p.dimensions = a.dimensions ∧ a.digits ≤ p.digits)) :
    (distance m a b (some p) : Except IdentifierError R) =
      .error (.shapeMismatch a.shape p.shape) := by
  have hfit : fitAnchor a p = .ok p := if_neg fun hcut => h ⟨hcut.2, hcut.1.le⟩
  have hne : a.shape ≠ p.shape := fun heq =>
    h ⟨congrArg Shape.dimensions heq.symm, (congrArg Shape.digits heq).le⟩
  have hcheck : checkShape a p = .error (.shapeMismatch a.shape p.shape) := if_neg hne
  simp only [distance, m.measure_of_shape hs, ok_bind, hfit, hcheck, error_bind]

/-- **Which identifiers have an anchored distance.** -/
theorem exists_distance_iff {R : Type} [Scalar R] (m : Metric) (a b p : Identifier) :
    (∃ v : R, distance m a b (some p) = .ok v) ↔
      a.shape = b.shape ∧ p.dimensions = a.dimensions ∧ a.digits ≤ p.digits := by
  by_cases hs : a.shape = b.shape
  · by_cases h : p.dimensions = a.dimensions ∧ a.digits ≤ p.digits
    · obtain ⟨p', hp', hs'⟩ := exists_anchor h.1 h.2
      exact iff_of_true ⟨_, distance_eq m hs h.1 h.2 hp' hs'⟩ ⟨hs, h⟩
    · rw [distance_error m hs h]
      exact iff_of_false (fun ⟨v, hv⟩ => by cases hv) fun hfit => h hfit.2
  · rw [distance, m.measure_error hs, error_bind]
    exact iff_of_false (fun ⟨v, hv⟩ => by cases hv) fun hfit => hs hfit.1

end

/-! ## Anchored distances without rounding -/

namespace Metric

/-- **Anchored distances on the torus.**  They exist for points of one shape and
    an anchor of their dimensions with at least as many digits, of which those
    beyond the digits of the points do not count.  Without rounding they are
    twice the distance of the points over the sum of all three distances, which
    is positive for different points, and make a metric with values between zero
    and one. -/
theorem anchored_metrics (m : Metric) (s : Shape) (anchor : Identifier) :
    (∀ (R : Type) [Scalar R] (a b : Identifier), (∃ v : R, distance m a b (some anchor) = .ok v) ↔
      a.shape = b.shape ∧ anchor.dimensions = a.dimensions ∧ a.digits ≤ anchor.digits) ∧
    (m ≠ .euclidean → anchor.dimensions = s.dimensions → s.digits ≤ anchor.digits →
      ∃ p : OfShape s, anchor.truncate s.digits = .ok p.1 ∧
        (∀ (R : Type) [Scalar R] (a b : OfShape s),
          (distance m a.1 b.1 (some anchor) : Except IdentifierError R) =
            distance m a.1 b.1 (some p.1)) ∧
        (∀ a b : OfShape s, ∃ ab ap bp : ℝ, m.measure a.1 b.1 = .ok ab ∧
          m.measure a.1 p.1 = .ok ap ∧ m.measure b.1 p.1 = .ok bp ∧
          (Scalar.lt Scalar.zero ab = true → 0 < ap + bp + ab) ∧
          (distance m a.1 b.1 (some anchor) : Except IdentifierError ℝ) =
            .ok (2 * ab / (ap + bp + ab))) ∧
        ∃ _ : MetricSpace (OfShape s), ∀ a b : OfShape s,
          (distance m a.1 b.1 (some anchor) : Except IdentifierError ℝ) = .ok (dist a b) ∧
            dist a b ∈ Set.Icc 0 1) := by
  refine ⟨fun R _ a b => exists_distance_iff m a b anchor, fun hm hD hn => ?_⟩
  obtain ⟨p', hp', hD', hn', -⟩ := exists_truncate anchor s.digits_pos hn
  have hs' : p'.shape = s := Shape.ext_extents (hD'.trans hD) hn'
  let p : OfShape s := ⟨p', hs'⟩
  obtain ⟨d, hd, hbetween⟩ := m.exists_isNatMetric hm s
  let inst : MetricSpace (OfShape s) := hd.metricSpace
  have hdist : ∀ a b : OfShape s, (m.between a.1 b.1 : ℝ) = dist a b := hbetween
  have hshape : ∀ a b : OfShape s, a.1.shape = b.1.shape := fun a b => a.2.trans b.2.symm
  have hmeasure : ∀ a b : OfShape s, m.measure a.1 b.1 = .ok (dist a b) := fun a b => by
    rw [m.measure_of_shape (hshape a b), hdist]
  have hfit : ∀ a : OfShape s, anchor.dimensions = a.1.dimensions ∧ a.1.digits ≤ anchor.digits ∧
      anchor.truncate a.1.digits = .ok p' ∧ p'.shape = a.1.shape := by
    rintro ⟨a, rfl⟩
    exact ⟨hD, hn, hp', hs'⟩
  have hanchored : ∀ a b : OfShape s, (distance m a.1 b.1 (some anchor) :
      Except IdentifierError ℝ) = .ok (steinhausDist p a b) := by
    intro a b
    obtain ⟨hD, hn, hp', hs'⟩ := hfit a
    rw [distance_eq m (hshape a b) hD hn hp' hs', hdist, hdist a p, hdist b p, ite_steinhaus]
  refine ⟨p, hp', fun R _ a b => ?_, fun a b => ?_, steinhausMetric p,
    fun a b => ⟨hanchored a b, steinhausDist_nonneg p a b, steinhausDist_le_one p a b⟩⟩
  · obtain ⟨hD, hn, hp', hs'⟩ := hfit a
    exact distance_truncate m (hshape a b) hD hn hp' hs'
  · refine ⟨_, _, _, hmeasure a b, hmeasure a p, hmeasure b p, fun hlt => ?_, ?_⟩
    · rw [Scalar.zero_real, Scalar.lt_real] at hlt
      exact steinhaus_denominator_pos p (dist_pos.1 hlt)
    · rw [hanchored, steinhausDist_eq]

/-- An anchor with more digits than the points. -/
theorem anchored_metrics_longAnchor :
    (∃ v : ℝ, distance manhattan (.zero (.mk 2 3)) (.ofFn (.mk 2 3) (· == 2))
      (some (.ofFn (.mk 2 5) (· == 7))) = .ok v) ∧
    ∃ _ : MetricSpace (OfShape (.mk 2 3)), ∀ a b : OfShape (.mk 2 3),
      (distance manhattan a.1 b.1 (some (.ofFn (.mk 2 5) (· == 7))) :
        Except IdentifierError ℝ) = .ok (dist a b) ∧ dist a b ∈ Set.Icc 0 1 := by
  obtain ⟨hiff, hmetric⟩ :=
    anchored_metrics manhattan (.mk 2 3) (.ofFn (.mk 2 5) (· == 7))
  obtain ⟨p, -, -, -, hspace⟩ := hmetric (by decide) rfl (by decide)
  exact ⟨(hiff ℝ _ _).2 ⟨rfl, rfl, by decide⟩, hspace⟩

end Metric

end CubeRouting
