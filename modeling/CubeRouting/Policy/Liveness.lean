/-
  A policy that prefers live peers.

  In a full slot the member with the lowest score makes room if its score is
  at most the threshold and strictly below the candidate's.  The scores of the
  peers that had to go are remembered, and a peer that comes back starts with
  the remembered score.
-/
import CubeRouting.Policy.Basic
import CubeRouting.Recency.LruCache

namespace CubeRouting

/-- The remembered scores of peers that had to go. -/
abbrev LivenessMemory := LruCache UInt64 Binary64

namespace LivenessMemory

/-- No remembered scores. -/
def empty (t : LivenessTunables) : LivenessMemory := .ofCapacity t.memory

/-- The score that a peer starts with. -/
def startingScore (memory : LivenessMemory) (t : LivenessTunables) (hash : UInt64) : Binary64 :=
  (memory.get? hash).getD t.initial

end LivenessMemory

/-- What the liveness policy does with an offer, and the scores that it
    remembers afterwards. -/
def Offer.livenessDecision (o : Offer) (t : LivenessTunables) (memory : LivenessMemory) :
    Decision × LivenessMemory :=
  let hash := o.candidate.node.hash
  let own := memory.startingScore t hash
  let memory := memory.touch hash
  let entry := o.entry.setLiveness own
  if !o.isFull then (⟨o.unlessStored (.insert o.members.length), entry⟩, memory)
  else
    match firstLeast (o.members.map (·.liveness t)) with
    | none => (⟨.decline, entry⟩, memory)
    | some (i, score) =>
      match o.members[i]? with
      | none => (⟨.decline, entry⟩, memory)
      | some member =>
        if score.le t.threshold && score.lt own && !o.stored then
          (⟨.replace i i, entry⟩, memory.put member.hash score)
        else (⟨.decline, entry⟩, memory)

end CubeRouting
