/-
  A policy whose evictions cannot be predicted from identifiers.

  Distances are measured after the node and the peers were changed by a secret
  random mask.  The mask is cleared in the digits that all peers of the slot
  share, so it permutes the hypercube of the slot.  It is drawn when it is
  first needed and dropped after a fixed number of admissions.
-/
import CubeRouting.Identifier.Arithmetic
import CubeRouting.Identifier.Random
import CubeRouting.Policy.Basic
import CubeRouting.Torus.Metric

namespace CubeRouting

/-- The mask of the secure policy and where the next one comes from. -/
structure MaskState where
  stream : WordStream
  /-- The mask that is in use. -/
  mask : Option Identifier
  /-- The number of admissions so far. -/
  admissions : Nat

namespace MaskState

/-- No mask was drawn yet. -/
def start (stream : WordStream) : MaskState := ⟨stream, none, 0⟩

/-- The mask in use, drawn if there is none of this shape. -/
def current (s : MaskState) (shape : Shape) : Identifier × MaskState :=
  let draw : Identifier × MaskState :=
    let (mask, stream) := Identifier.random shape s.stream
    (mask, { s with stream := stream, mask := some mask })
  match s.mask with
  | some mask => if mask.shape = shape then (mask, s) else draw
  | none => draw

/-- One more admission; the mask is dropped at every multiple of the
    interval. -/
def recordAdmission (s : MaskState) (interval : Nat) : MaskState :=
  let admissions := s.admissions + 1
  { s with admissions := admissions, mask := if admissions % interval = 0 then none else s.mask }

end MaskState

/-- A mask with the digits before `start` cleared. -/
def Identifier.window (mask : Identifier) (start : Nat) : Identifier :=
  Identifier.ofFn mask.shape fun i =>
    decide (start ≤ i / mask.dimensions) && mask.bits.getD i false

/-- The distance to the node after both were changed by a mask. -/
def maskedDistance (m : Metric) (mask self peer : Identifier) :
    Except IdentifierError Binary64 := do
  m.measure (← self.xor mask) (← peer.xor mask)

/-- The masked distances of the candidate and of the members. -/
def Offer.maskedDistances (o : Offer) (m : Metric) (mask : Identifier) :
    Except IdentifierError (Binary64 × List Binary64) := do
  let self := o.candidate.self
  let mask := mask.window (self.digits - o.slot.index.level)
  let own ← maskedDistance m mask self o.candidate.node.id
  let scores ← o.members.mapM fun e => maskedDistance m mask self e.node.id
  return (own, scores)

/-- The member that makes room under a mask: the last of the most distant ones,
    if the candidate is strictly closer. -/
def Offer.maskedVictim? (o : Offer) (m : Metric) (mask : Identifier) : Option Nat :=
  match o.maskedDistances m mask with
  | .error _ => none
  | .ok (own, scores) =>
    match lastGreatest scores with
    | some (i, worst) => if own.lt worst then some i else none
    | none => none

/-- What the secure policy does with an offer, and its state afterwards. -/
def Offer.secureMove (o : Offer) (m : Metric) (interval : Nat) (s : MaskState) : Move × MaskState :=
  if !o.isFull then
    if o.stored then (.decline, s) else (.insert o.members.length, s.recordAdmission interval)
  else
    let (mask, s) := s.current o.candidate.self.shape
    match o.maskedVictim? m mask with
    | some i => if o.stored then (.decline, s) else (.replace i i, s.recordAdmission interval)
    | none => (.decline, s)

end CubeRouting
