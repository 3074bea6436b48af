/-
  What translations of the torus leave unchanged.

  Two points that are moved in the same way keep their difference on every axis,
  and distances and orthants depend on nothing else.

  * `BitString.sub_congr`: a difference of bit strings is one of numbers on a
    circle;
  * `IsTranslate.sub_coordinateBits`: the differences of two points that are
    translated together;
  * `Metric.measure_translate`, `orthantNumber_translate`: their distances and
    orthants;
  * `Identifier.translation_invariant`: unit steps.
-/
import CubeRouting.Proofs.Identifier.Carry
import CubeRouting.Proofs.Torus.Distance
import CubeRouting.Torus.Orthant

namespace CubeRouting

open BitString (toNat sub gap isForward)

/-- **A difference of strings is one of numbers** on the circle. -/
theorem BitString.sub_congr {x y x' y' : BitString} (hlen : x.length = y.length)
    (hx : x'.length = x.length) (hy : y'.length = y.length)
    (h : (toNat x' - toNat y' : Int) ≡ toNat x - toNat y [ZMOD (2 ^ x.length : Nat)]) :
    sub x' y' = sub x y := by
  refine toNat_inj (by simp [hx, hy]) ?_
  have hnum : (toNat (sub x' y') : Int) = toNat (sub x y) := by
    rw [toNat_sub (hx.trans (hlen.trans hy.symm)), toNat_sub hlen, hx]
    exact h
  exact_mod_cast hnum

section
variable {a b a' b' : Identifier} {δ : Nat → Int}

namespace Identifier

/-- Points that are translated together keep their differences. -/
theorem IsTranslate.sub_coordinateBits (hs : a.shape = b.shape) (ha : IsTranslate a a' δ)
    (hb : IsTranslate b b' δ) {i : Nat} (hi : i < a.dimensions) :
    sub (a'.coordinateBits i) (b'.coordinateBits i) =
      sub (a.coordinateBits i) (b.coordinateBits i) := by
  have hD : b.dimensions = a.dimensions := congrArg Shape.dimensions hs.symm
  have hn : b.digits = a.digits := congrArg Shape.digits hs.symm
  have hdiff := (ha.number i hi).sub (hn ▸ hb.number i (hi.trans_eq hD.symm))
  rw [add_sub_add_right_eq_sub] at hdiff
  refine BitString.sub_congr (length_coordinateBits_congr hs i)
    (length_coordinateBits_congr ha.shape i) (length_coordinateBits_congr hb.shape i) ?_
  rwa [length_coordinateBits]

end Identifier

variable (hs : a.shape = b.shape) (ha : Identifier.IsTranslate a a' δ)
  (hb : Identifier.IsTranslate b b' δ)
include hs ha hb

theorem shape_translate : a'.shape = b'.shape := ha.shape.trans (hs.trans hb.shape.symm)

/-- Whatever the differences decide stays as it is. -/
theorem gap_translate {i : Nat} (hi : i < a.dimensions) :
    gap (a'.coordinateBits i) (b'.coordinateBits i) =
      gap (a.coordinateBits i) (b.coordinateBits i) := by
  have hback := ha.sub_coordinateBits hs hb hi
  have hforth := hb.sub_coordinateBits hs.symm ha
    (hi.trans_eq (congrArg Shape.dimensions hs))
  rw [gap, gap, BitString.isBackward, BitString.isBackward, hback, hforth]

theorem isAhead_translate {i : Nat} (hi : i < a.dimensions) :
    isAhead a' b' i = isAhead a b i := by
  have hback := ha.sub_coordinateBits hs hb hi
  have hforth := hb.sub_coordinateBits hs.symm ha
    (hi.trans_eq (congrArg Shape.dimensions hs))
  rw [isAhead, isAhead, isForward, isForward, hback, hforth]

/-- **Distances are invariant** under translations, in every arithmetic. -/
theorem Metric.measure_translate {R : Type} [Scalar R] (m : Metric) (hm : m ≠ .ring) :
    (m.measure a' b' : Except IdentifierError R) = m.measure a b := by
  have haxes : (axisDistances a' b' : List R) = axisDistances a b := by
    rw [axisDistances, axisDistances, ha.dimensions_eq]
    refine List.map_congr_left fun i hi => ?_
    rw [axisDistance, axisDistance, gap_translate hs ha hb (List.mem_range.1 hi)]
  rw [m.measure_of_shape hs, m.measure_of_shape (shape_translate hs ha hb)]
  cases m with
  | ring => exact absurd rfl hm
  | _ => simp only [between, haxes]

/-- **Orthants are invariant** under translations. -/
theorem orthantNumber_translate : orthantNumber a' b' = orthantNumber a b := by
  have hahead : (List.range a.dimensions).map (isAhead a' b') =
      (List.range a.dimensions).map (isAhead a b) :=
    List.map_congr_left fun i hi => isAhead_translate hs ha hb (List.mem_range.1 hi)
  rw [orthantNumber, orthantNumber, Identifier.checkShape, Identifier.checkShape, if_pos hs,
    if_pos (shape_translate hs ha hb), ha.dimensions_eq, hahead]

end

/-! ## Unit steps -/

namespace Identifier

/-- `a'` and `b'` are as far apart as `a` and `b`, by all metrics that go by the
    axes and in every arithmetic, and see each other in the same orthant. -/
structure SeenAlike (a b a' b' : Identifier) : Prop where
  measure : ∀ m : Metric, m ≠ .ring → ∀ (R : Type) [Scalar R],
    (m.measure a' b' : Except IdentifierError R) = m.measure a b
  orthant : orthantNumber a' b' = orthantNumber a b

section
variable {a b : Identifier} (hs : a.shape = b.shape) {c d : Nat} (hc : c < a.dimensions)
  (hd : d < a.digits)
include hs hc hd

theorem exists_step_seenAlike (up : Bool) :
    ∃ a' b', a.step up c d = .ok a' ∧ b.step up c d = .ok b' ∧ SeenAlike a b a' b' := by
  have hc' : c < b.dimensions := hc.trans_eq (congrArg Shape.dimensions hs)
  have hn : b.digits = a.digits := congrArg Shape.digits hs.symm
  obtain ⟨a', ha', ha, -⟩ := exists_step_translate hc hd up
  obtain ⟨b', hb', hb, -⟩ := exists_step_translate hc' (hd.trans_eq hn.symm) up
  rw [hn] at hb
  exact ⟨a', b', ha', hb', fun m hm R _ => m.measure_translate hs ha hb hm,
    orthantNumber_translate hs ha hb⟩

/-- **The torus looks the same from everywhere**: when two points take the same
    unit step, up or down, neither their distances along the axes nor their
    orthants change. -/
theorem translation_invariant :
    (∃ a' b', a.stepUp c d = .ok a' ∧ b.stepUp c d = .ok b' ∧ SeenAlike a b a' b') ∧
    ∃ a' b', a.stepDown c d = .ok a' ∧ b.stepDown c d = .ok b' ∧ SeenAlike a b a' b' :=
  ⟨exists_step_seenAlike hs hc hd true, exists_step_seenAlike hs hc hd false⟩

end

/-- One point wraps around and the other does not. -/
theorem translation_invariant_oneWraps :
    let a : Identifier := .ofFn (.mk 2 3) (· % 2 == 0)
    let b : Identifier := .ofFn (.mk 2 3) (· == 3)
    let a' : Identifier := .zero (.mk 2 3)
    let b' : Identifier := .ofFn (.mk 2 3) fun i => i == 3 || i == 4
    a.stepUp 0 2 = .ok a' ∧ b.stepUp 0 2 = .ok b' ∧
      (Metric.euclidean.measure a' b' : Except IdentifierError Binary64) =
        Metric.euclidean.measure a b ∧
      orthantNumber a' b' = orthantNumber a b := by
  intro a b a' b'
  have ha : a.stepUp 0 2 = .ok a' := by decide
  have hb : b.stepUp 0 2 = .ok b' := by decide
  obtain ⟨⟨x, y, hx, hy, halike⟩, -⟩ :=
    translation_invariant (a := a) (b := b) rfl (c := 0) (d := 2) (by decide) (by decide)
  rw [Except.ok.inj (hx.symm.trans ha), Except.ok.inj (hy.symm.trans hb)] at halike
  exact ⟨ha, hb, halike.measure .euclidean (by decide) Binary64, halike.orthant⟩

end Identifier

end CubeRouting
