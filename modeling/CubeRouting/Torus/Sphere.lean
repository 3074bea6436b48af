/-
  Angles between points seen from a center.

  The displacement of a point from the center, the shorter way round on each
  axis, is scaled to the radius of a sphere.  The distance of two points is
  the central angle of their images.  A point at the center has no direction
  and is at angle zero from all points.
-/
import CubeRouting.Identifier.Cells

namespace CubeRouting

/-- The signed way from `center` to `point` on each axis; half way round goes
    forward. -/
def displacement (center point : Identifier) : List Binary64 :=
  (List.range center.dimensions).map fun c =>
    let a := center.coordinateBits c
    let b := point.coordinateBits c
    let length : Binary64 := (a.gap b).toScalar
    if a.isBackward b then -length else length

/-- The length of a vector. -/
def norm (v : List Binary64) : Binary64 := (Scalar.sum (v.map fun x => x * x)).sqrt

/-- The angle between `a` and `b` on a sphere around `center`, in radians. -/
def sphericalDistance (a b center : Identifier) (radius : Binary64) :
    Except IdentifierError Binary64 := do
  Identifier.checkShape a b
  Identifier.checkShape a center
  if !(radius.isFinite && (0 : Binary64).lt radius) then throw (.invalidRadius radius)
  let va := displacement center a
  let vb := displacement center b
  let na := norm va
  let nb := norm vb
  if na.isZero || nb.isZero then return 0
  let squares := (va.zip vb).map fun (x, y) =>
    let delta := x * radius / na - y * radius / nb
    delta * delta
  let chord := (Scalar.sum squares).sqrt
  return 2 * ((chord / (2 * radius)).min 1).asin

end CubeRouting
