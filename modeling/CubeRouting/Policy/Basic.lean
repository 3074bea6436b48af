/-
  Offers of a peer to a slot, and what may come of them.

  A policy looks at an offer and chooses a move: decline, insert, or replace a
  member.  The table carries the move out and reports the admission.  A table
  does not take a peer twice, and a policy declines a peer that the table has.
-/
import CubeRouting.Table.SubTable

namespace CubeRouting

/-! ## Offers -/

/-- A peer to be placed. -/
structure Candidate where
  node : NodeRecord
  /-- The identifier of the node that places it. -/
  self : Identifier
  /-- The distance between the two. -/
  distance : Binary64
  time : Timestamp

/-- A candidate offered to a slot. -/
structure Offer where
  candidate : Candidate
  slot : SlotRef
  /-- The members of the slot. -/
  members : List Entry
  /-- How many members the slot may have. -/
  capacity : Nat
  /-- The table has the candidate already. -/
  stored : Bool

namespace Offer

/-- No member can be added. -/
def isFull (o : Offer) : Bool := o.capacity ≤ o.members.length

/-- The candidate as a member of the slot. -/
def entry (o : Offer) : Entry :=
  .fresh o.candidate.node o.candidate.distance o.candidate.time o.slot

end Offer

/-! ## Moves -/

/-- What a policy does with an offer. -/
inductive Move where
  /-- Leave the slot as it is. -/
  | decline
  /-- Add the candidate at a position. -/
  | insert (position : Nat)
  /-- Take out the member at `victim`, then add the candidate at a position of
      the rest. -/
  | replace (victim position : Nat)
deriving DecidableEq

/-- The move, or declining if the table has the candidate already. -/
def Offer.unlessStored (o : Offer) (move : Move) : Move := if o.stored then .decline else move

/-- What came of an offer. -/
inductive Admission where
  /-- The candidate was added. -/
  | admitted
  /-- The candidate was added in place of a member. -/
  | replaced (evicted : UInt64)
  /-- The candidate was not added. -/
  | declined
deriving DecidableEq

/-- The candidate is a member now. -/
def Admission.isAdmitted : Admission → Bool
  | admitted | replaced _ => true
  | declined => false

/-- The move of a policy together with the entry that it adds. -/
structure Decision where
  move : Move
  entry : Entry

/-- A table after a decision, and what came of it. -/
def SubTable.carryOut (t : SubTable) (d : Decision) : SubTable × Admission :=
  match d.move with
  | .decline => (t, .declined)
  | .insert position =>
    if t.accepts d.entry then (t.insert position d.entry, .admitted) else (t, .declined)
  | .replace victim position =>
    match (t.slot d.entry.slot.index)[victim]? with
    | none => (t, .declined)
    | some member =>
      if t.contains d.entry.hash then (t, .declined)
      else ((t.remove member.hash).1.insert position d.entry, .replaced member.hash)

/-! ## Choosing a member -/

/-- The position and the value of the key that `wins` against those before it,
    from the first to the last. -/
def champion {κ : Type} (wins : κ → κ → Bool) (keys : List κ) : Option (Nat × κ) :=
  keys.zipIdx.foldl
    (fun best (key, i) =>
      match best with
      | none => some (i, key)
      | some (_, holder) => if wins key holder then some (i, key) else best)
    none

/-- The first of the smallest keys. -/
def firstLeast {R : Type} [Scalar R] (keys : List R) : Option (Nat × R) :=
  champion Scalar.before keys

/-- The first of the largest keys. -/
def firstGreatest {R : Type} [Scalar R] (keys : List R) : Option (Nat × R) :=
  champion (fun key holder => Scalar.before holder key) keys

/-- The last of the largest keys. -/
def lastGreatest {R : Type} [Scalar R] (keys : List R) : Option (Nat × R) :=
  champion (fun key holder => !Scalar.before key holder) keys

end CubeRouting
