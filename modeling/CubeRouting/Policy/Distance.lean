/-
  The two plainest policies.

  First come, first served admits while there is room.  The distance policy
  goes on after that: a candidate that is strictly closer than the most
  distant member takes its place.
-/
import CubeRouting.Policy.Basic

namespace CubeRouting.Offer

/-- First come, first served. -/
def simpleMove (o : Offer) : Move :=
  if o.isFull then .decline else .insert o.members.length

/-- The closest peers stay. -/
def distanceMove (o : Offer) : Move :=
  if o.isFull then
    match firstGreatest (o.members.map (·.distance)) with
    | some (i, worst) => if o.candidate.distance.lt worst then .replace i i else .decline
    | none => .decline
  else .insert o.members.length

end CubeRouting.Offer
