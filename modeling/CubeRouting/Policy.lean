/-
  Admission policies.

  A policy carries what it remembers from one offer to the next.
  `Policy.decide` is its decision on an offer and the policy afterwards, and
  `SubTable.offer` lets a table carry the decision out.
-/
import CubeRouting.Config.Basic
import CubeRouting.Policy.Balanced
import CubeRouting.Policy.Distance
import CubeRouting.Policy.Evenness
import CubeRouting.Policy.Liveness
import CubeRouting.Policy.Secure

namespace CubeRouting

/-- An admission policy with its memory. -/
inductive Policy where
  /-- First come, first served. -/
  | simple
  /-- The closest peers. -/
  | distance
  /-- The closest peers, spread over the buckets of a partition. -/
  | balanced (partition : Partition)
  /-- Peers far from each other and close to the node. -/
  | evenness (metric : Metric) (weights : EvennessWeights Binary64)
  /-- Live peers. -/
  | liveness (tunables : LivenessTunables) (memory : LivenessMemory)
  /-- The closest peers under a secret mask. -/
  | secure (metric : Metric) (interval : Nat) (state : MaskState)

namespace Policy

/-! ## The policies of a configuration -/

/-- The policy of the neighborhood set. -/
def ofNs (c : Config) : Policy :=
  match c.nsPolicy with
  | .simple => simple
  | .distance => distance
  | .balancedOrthants => balanced .orthants
  | .balancedRing => balanced .semirings
  | .evenness => evenness c.metric c.evenness
  | .liveness => liveness c.liveness (.empty c.liveness)

/-- The policy of RT1 and RT2. -/
def ofRt (c : Config) : Policy :=
  match c.rtPolicy with
  | .simple => simple
  | .distance => distance
  | .liveness => liveness c.liveness (.empty c.liveness)

/-- The policy of the secure tables; `entropy` gives the masks if the
    configuration has no seed. -/
def ofSecure (c : Config) (entropy : WordStream) : Policy :=
  secure c.metric (max c.secure.maskInterval 1)
    (.start ((c.secure.seed.map WordStream.ofSeed).getD entropy))

/-- The short name of a policy. -/
def name : Policy → String
  | simple => "simple"
  | distance => "distance"
  | balanced .orthants => "balanced-orthants"
  | balanced .semirings => "balanced-ring"
  | evenness .. => "avg-dist-evenness"
  | liveness .. => "liveness"
  | secure .. => "secure"

/-- The number of admissions that the secure policy counted. -/
def admissions : Policy → Nat
  | secure _ _ state => state.admissions
  | _ => 0

/-! ## Decisions -/

/-- The decision on an offer, and the policy after it. -/
def decide (p : Policy) (o : Offer) : Decision × Policy :=
  match p with
  | simple => (⟨o.unlessStored o.simpleMove, o.entry⟩, simple)
  | distance => (⟨o.unlessStored o.distanceMove, o.entry⟩, distance)
  | balanced partition => (⟨o.unlessStored (o.balancedMove partition), o.entry⟩, p)
  | evenness metric weights => (⟨o.unlessStored (o.evennessMove metric weights), o.entry⟩, p)
  | liveness tunables memory =>
    let (decision, memory) := o.livenessDecision tunables memory
    (decision, liveness tunables memory)
  | secure metric interval state =>
    let (move, state) := o.secureMove metric interval state
    (⟨move, o.entry⟩, secure metric interval state)

end Policy

/-- A table after a candidate was offered to one of its slots, the policy after
    it, and what came of it. -/
def SubTable.offer (t : SubTable) (policy : Policy) (candidate : Candidate) (i : SlotIndex) :
    SubTable × Policy × Admission :=
  let (decision, policy) := policy.decide
    { candidate
      slot := ⟨t.kind, i⟩
      members := t.slot i
      capacity := t.capacity
      stored := t.contains candidate.node.hash }
  let (t, admission) := t.carryOut decision
  (t, policy, admission)

end CubeRouting
