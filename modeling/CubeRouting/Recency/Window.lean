/-
  The memory of recently processed peers: a peer is recent if it was recorded
  less than the retention time ago and is still remembered.
-/
import CubeRouting.Recency.LruCache
import CubeRouting.Timestamp

namespace CubeRouting

/-- The memory of recently processed peers. -/
structure RecencyWindow where
  /-- How long a peer counts as recent, in milliseconds. -/
  retention : Nat
  seen : LruCache UInt64 Timestamp

namespace RecencyWindow

/-- An empty memory. -/
def empty (retention capacity : Nat) : RecencyWindow := ⟨retention, .ofCapacity capacity⟩

/-- The number of remembered peers. -/
def size (w : RecencyWindow) : Nat := w.seen.size

/-- Whether a peer is recent, and the memory after this look-up, which forgets
    an expired peer. -/
def check (w : RecencyWindow) (hash : UInt64) (now : Timestamp) : Bool × RecencyWindow :=
  match w.seen.get? hash with
  | some time =>
    if now.since time < w.retention then (true, { w with seen := w.seen.touch hash })
    else (false, { w with seen := w.seen.erase hash })
  | none => (false, w)

/-- The memory with a peer recorded as processed now. -/
def record (w : RecencyWindow) (hash : UInt64) (now : Timestamp) : RecencyWindow :=
  { w with seen := w.seen.put hash now }

end RecencyWindow

end CubeRouting
