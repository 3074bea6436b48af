/-
  Distances on the torus.

  Along one axis the distance of two coordinates is the shorter way round.  A
  metric joins the distances of all axes, or reads the whole identifier as one
  coordinate (`ring`).  An anchored distance is the Steinhaus transform of a
  metric: `2 d(a, b) / (d(a, p) + d(b, p) + d(a, b))` for the anchor `p`.
-/
import CubeRouting.Identifier.Cells

namespace CubeRouting

/-- A way to measure distances on the torus. -/
inductive Metric where
  /-- The sum of the axis distances. -/
  | manhattan
  /-- The root of the sum of the squared axis distances. -/
  | euclidean
  /-- The largest axis distance. -/
  | chebyshev
  /-- The distance on the circle of all identifiers. -/
  | ring
deriving DecidableEq

namespace Metric

/-- The metrics in their usual order. -/
def all : List Metric := [manhattan, euclidean, chebyshev, ring]

def name : Metric → String
  | manhattan => "manhattan"
  | euclidean => "euclidean"
  | chebyshev => "chebyshev"
  | ring => "ring"

/-- The metric of a name, in any case; otherwise the name in lower case. -/
def parse (s : String) : Except String Metric :=
  let lower := s.map Char.toLower
  match all.find? (·.name == lower) with
  | some m => .ok m
  | none => .error lower

end Metric

variable {R : Type} [Scalar R]

/-- The shorter way round between two coordinates. -/
@[specialize] def axisDistance (a b : BitString) : R := (a.gap b).toScalar

/-- The distances along all axes. -/
@[specialize] def axisDistances (a b : Identifier) : List R :=
  (List.range a.dimensions).map fun c => axisDistance (a.coordinateBits c) (b.coordinateBits c)

namespace Metric

/-- The distance of two identifiers of one shape. -/
@[specialize] def between (m : Metric) (a b : Identifier) : R :=
  match m with
  | manhattan => Scalar.sum (axisDistances a b)
  | euclidean => Scalar.sqrt (Scalar.sum ((axisDistances a b).map fun d => d * d))
  | chebyshev => (axisDistances a b).foldl Scalar.max Scalar.zero
  | ring => axisDistance a.ringBits b.ringBits

/-- The distance of two identifiers; they have to be of one shape. -/
@[specialize] def measure (m : Metric) (a b : Identifier) : Except IdentifierError R := do
  Identifier.checkShape a b
  return m.between a b

end Metric

/-! ## Anchored distances -/

/-- The anchor cut to the digits of `a` where it has more of them. -/
def fitAnchor (a anchor : Identifier) : Except IdentifierError Identifier :=
  if a.digits < anchor.digits ∧ anchor.dimensions = a.dimensions then anchor.truncate a.digits
  else .ok anchor

/-- The Steinhaus transform of the distances `ab`, `ap` and `bp` among two
    points and the anchor. -/
@[inline] def steinhaus (ab ap bp : R) : R := Scalar.ofNat 2 * ab / (ap + bp + ab)

/-- The distance of two identifiers, transformed if there is an anchor.  At
    distance zero the transform is not taken. -/
@[specialize] def distance (m : Metric) (a b : Identifier) (anchor : Option Identifier) :
    Except IdentifierError R := do
  let ab : R ← m.measure a b
  match anchor with
  | none => return ab
  | some p =>
    let p ← fitAnchor a p
    Identifier.checkShape a p
    if !Scalar.lt Scalar.zero ab then return Scalar.zero
    return steinhaus ab (← m.measure a p) (← m.measure b p)

end CubeRouting
