/-
  A policy that lowers the evenness objective of a slot.

  In a full slot every swap of one member for the candidate is scored, by
  updating the sums that the objective is made of.  The first best swap is
  made if its objective is strictly below that of the members as they are.
-/
import CubeRouting.Policy.Basic
import CubeRouting.Torus.Metric

namespace CubeRouting

/-- A peer as the objective sees it. -/
structure SpreadPoint (R : Type) where
  id : Identifier
  /-- The distance to the node. -/
  distance : R

namespace Evenness

variable {R : Type} [Scalar R]

/-- The distances of each of the points to all of them, zero to itself. -/
@[specialize] def pairwise (m : Metric) (points : List (SpreadPoint R)) :
    Except IdentifierError (List (List R)) :=
  points.zipIdx.mapM fun (a, i) =>
    points.zipIdx.mapM fun (b, j) => if i = j then pure Scalar.zero else m.measure a.id b.id

/-- The sum of the distances of all pairs, each taken once. -/
@[specialize] def pairSum (rows : List (List R)) : R :=
  Scalar.sum (rows.zipIdx.flatMap fun (row, i) => row.drop (i + 1))

/-- The best swap with a candidate. -/
structure Swap (R : Type) where
  /-- The position of the member that goes. -/
  position : Nat
  /-- The objective after the swap. -/
  swapped : R
  /-- The objective of the members as they are. -/
  current : R

/-- The objective after each swap of a member for the candidate, from the
    distances of the members to each other and to the candidate. -/
@[specialize] def swapObjectives (w : EvennessWeights R) (points : List (SpreadPoint R))
    (rows : List (List R)) (toCandidate : List R) (candidateDistance : R) : List R :=
  let total := pairSum rows
  let selfSum := Scalar.sum (points.map (·.distance))
  (points.zip rows).zipIdx.map fun ((p, row), i) =>
    w.objective (total - Scalar.sum row + Scalar.sum (toCandidate.eraseIdx i))
      (selfSum - p.distance + candidateDistance) points.length

/-- The first of the swaps with the smallest objective. -/
@[specialize] def bestSwap (m : Metric) (w : EvennessWeights R) (points : List (SpreadPoint R))
    (candidate : SpreadPoint R) : Except IdentifierError (Option (Swap R)) := do
  let rows ← pairwise m points
  let toCandidate ← points.mapM fun p => m.measure p.id candidate.id
  let current := w.objective (pairSum rows) (Scalar.sum (points.map (·.distance))) points.length
  return (firstLeast (swapObjectives w points rows toCandidate candidate.distance)).map
    fun (i, swapped) => ⟨i, swapped, current⟩

/-- The position of the member to swap for the candidate, if that lowers the
    objective. -/
@[specialize] def victim? (m : Metric) (w : EvennessWeights R) (points : List (SpreadPoint R))
    (candidate : SpreadPoint R) : Option Nat :=
  match bestSwap m w points candidate with
  | .ok (some swap) => if Scalar.lt swap.swapped swap.current then some swap.position else none
  | _ => none

end Evenness

/-- Swaps that lower the evenness objective are made. -/
def Offer.evennessMove (o : Offer) (m : Metric) (w : EvennessWeights Binary64) : Move :=
  if o.isFull then
    match Evenness.victim? m w (o.members.map fun e => ⟨e.node.id, e.distance⟩)
        ⟨o.candidate.node.id, o.candidate.distance⟩ with
    | some i => .replace i i
    | none => .decline
  else .insert o.members.length

end CubeRouting
