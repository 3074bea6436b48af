/-
  What comes of a peer that the node was notified of.
-/
import CubeRouting.Policy.Basic

namespace CubeRouting

/-- Why a peer was not placed. -/
inductive SkipReason where
  /-- The peer is the node. -/
  | selfNotification
  /-- Its identifier has another shape. -/
  | shapeMismatch
  /-- It was processed a short time ago. -/
  | recentlyProcessed
  /-- It is being placed already. -/
  | alreadyInProgress
  /-- Another identifier with its hash is stored. -/
  | hashCollision
  /-- It is stored with another address, and addresses are not updated. -/
  | addressConflict
deriving DecidableEq

/-! ## One table -/

/-- What happened in one table. -/
inductive Placement where
  /-- The table is not in use. -/
  | disabled
  /-- The peer was stored already. -/
  | alreadyPresent
  /-- A rule keeps the peer out. -/
  | excluded
  /-- The peer is in no neighboring hypercube. -/
  | notAdjacent
  /-- The peer was offered to a slot. -/
  | considered (slot : SlotIndex) (admission : Admission)
deriving DecidableEq

namespace Placement

/-- The peer was added. -/
def isAdmitted : Placement → Bool
  | considered _ admission => admission.isAdmitted
  | _ => false

/-- The table has the peer now. -/
def holdsPeer : Placement → Bool
  | alreadyPresent => true
  | p => p.isAdmitted

/-- The peer that had to go. -/
def evicted? : Placement → Option UInt64
  | considered _ (.replaced evicted) => some evicted
  | _ => none

end Placement

/-! ## All tables -/

/-- What happened in each table. -/
structure Report where
  hash : UInt64
  /-- The distance of the peer to the node. -/
  distance : Binary64
  ns : Placement
  rt1 : Placement
  rt2 : Placement
  secRt1 : Placement
  secRt2 : Placement
deriving DecidableEq

namespace Report

/-- What happened in one table. -/
def get (r : Report) : TableKind → Placement
  | .ns => r.ns
  | .rt1 => r.rt1
  | .rt2 => r.rt2
  | .secRt1 => r.secRt1
  | .secRt2 => r.secRt2

/-- The tables that the peer was added to. -/
def admittedTo (r : Report) : List TableKind :=
  TableKind.all.filter fun kind => (r.get kind).isAdmitted

/-- The peers that had to go, with their tables. -/
def evictions (r : Report) : List (TableKind × UInt64) :=
  TableKind.all.filterMap fun kind => (r.get kind).evicted?.map (kind, ·)

end Report

/-- What came of a notification. -/
inductive Outcome where
  /-- The peer was offered to the tables. -/
  | processed (report : Report)
  /-- The peer was not placed. -/
  | skipped (reason : SkipReason)
deriving DecidableEq

/-! ## Counters -/

/-- What happened since the node started. -/
structure Counters where
  /-- Peers offered to the tables. -/
  considered : Nat
  /-- Peers not placed. -/
  skipped : Nat
  /-- Entries added. -/
  admitted : Nat
  /-- Entries that had to go. -/
  evicted : Nat
deriving DecidableEq

namespace Counters

/-- Nothing happened. -/
def zero : Counters := ⟨0, 0, 0, 0⟩

/-- The counters after one more outcome. -/
def record (c : Counters) : Outcome → Counters
  | .processed report =>
    { c with
      considered := c.considered + 1
      admitted := c.admitted + report.admittedTo.length
      evicted := c.evicted + report.evictions.length }
  | .skipped _ => { c with skipped := c.skipped + 1 }

end Counters

end CubeRouting
