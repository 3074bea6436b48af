/-
  A policy that keeps the closest peers while it spreads them evenly over the
  buckets of a partition.  Members are sorted by distance.

  In a full slot let `most` be the largest number of members in a bucket and
  `own` the number in the candidate's bucket.

  * If `own = most`, the most distant member of the candidate's bucket makes
    room, but only for a strictly closer candidate.
  * If `own + 1 = most`, so does the most distant member of the fullest
    buckets.
  * Otherwise that member makes room for any candidate.
-/
import CubeRouting.Policy.Basic
import CubeRouting.Torus.Orthant

namespace CubeRouting

/-- A partition of the identifiers around the node into buckets. -/
inductive Partition where
  /-- One bucket per orthant. -/
  | orthants
  /-- One bucket per half of the identifier ring. -/
  | semirings
deriving DecidableEq

def Partition.bucket (p : Partition) (self id : Identifier) : Except IdentifierError Nat :=
  match p with
  | orthants => orthantNumber self id
  | semirings => semiringNumber self id

/-- The members of one bucket. -/
structure Bucket where
  /-- How many there are. -/
  count : Nat
  /-- The position of the most distant one, the last of several. -/
  worst : Nat
  /-- Its distance. -/
  distance : Binary64

/-- The bucket of the members at the given positions with the given
    distances. -/
def Bucket.ofMembers? : List (Nat × Binary64) → Option Bucket
  | [] => none
  | (i, d) :: rest =>
    some (rest.foldl
      (fun b (i, d) =>
        if b.distance.le d then ⟨b.count + 1, i, d⟩ else { b with count := b.count + 1 })
      ⟨1, i, d⟩)

/-- A member that may have to make room. -/
structure Victim where
  position : Nat
  distance : Binary64
  /-- The candidate has to be strictly closer. -/
  mustImprove : Bool

namespace Balanced

/-- The bucket number of each member, with its position and distance.  Members
    without a bucket are left out. -/
def bucketed (p : Partition) (self : Identifier) (members : List Entry) :
    List (Nat × Nat × Binary64) :=
  members.zipIdx.filterMap fun (e, i) =>
    match p.bucket self e.node.id with
    | .ok b => some (b, i, e.distance)
    | .error _ => none

/-- The bucket with a number. -/
def bucketAt? (members : List (Nat × Nat × Binary64)) (b : Nat) : Option Bucket :=
  Bucket.ofMembers? ((members.filter (·.1 == b)).map (·.2))

/-- The buckets that have members, in the order of their first members. -/
def buckets (members : List (Nat × Nat × Binary64)) : List Bucket :=
  (members.map (·.1)).eraseDups.filterMap (bucketAt? members)

/-- The most distant member of the fullest buckets. -/
def worstOfFullest (buckets : List Bucket) (most : Nat) : Option (Nat × Binary64) :=
  let full := buckets.filter (·.count == most)
  match lastGreatest (full.map (·.distance)) with
  | none => none
  | some (k, d) => full[k]?.map fun b => (b.worst, d)

/-- The member that has to make room, from all buckets and the candidate's own
    one.  The order of the buckets decides between fullest ones whose most
    distant members are equally far. -/
def victimAmong (all : List Bucket) (own : Option Bucket) : Option Victim :=
  let most := (all.map (·.count)).foldl max 0
  let distant (mustImprove : Bool) : Option Victim :=
    (worstOfFullest all most).map fun (i, d) => ⟨i, d, mustImprove⟩
  match own with
  | some b =>
    if b.count = most then some ⟨b.worst, b.distance, true⟩ else distant (b.count + 1 = most)
  | none => distant (1 = most)

/-- The member that has to make room for a candidate of bucket `own`. -/
def victim? (p : Partition) (self : Identifier) (members : List Entry) (own : Nat) :
    Option Victim :=
  let placed := bucketed p self members
  victimAmong (buckets placed) (bucketAt? placed own)

/-- The position that keeps members sorted by distance, after those at the same
    distance. -/
def sortedPosition (members : List Entry) (distance : Binary64) : Nat :=
  (members.takeWhile fun e => e.distance.le distance).length

end Balanced

/-- The move of a full slot that has found a member to make room. -/
def Offer.balancedSwap (o : Offer) (v : Victim) : Move :=
  if v.mustImprove && v.distance.le o.candidate.distance then .decline
  else
    .replace v.position
      (Balanced.sortedPosition (o.members.eraseIdx v.position) o.candidate.distance)

/-- The closest peers stay, spread over the buckets. -/
def Offer.balancedMove (o : Offer) (p : Partition) : Move :=
  match p.bucket o.candidate.self o.candidate.node.id with
  | .error _ => .decline
  | .ok own =>
    if !o.isFull then .insert (Balanced.sortedPosition o.members o.candidate.distance)
    else
      match Balanced.victim? p o.candidate.self o.members own with
      | none => .decline
      | some v => o.balancedSwap v

end CubeRouting
