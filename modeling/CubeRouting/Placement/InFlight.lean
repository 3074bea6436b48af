/-
  The peers that are being placed.  A peer can be claimed once at a time.
-/

namespace CubeRouting

/-- The hashes of the peers that are being placed. -/
structure InFlight where
  hashes : List UInt64
deriving DecidableEq

namespace InFlight

/-- No peer is being placed. -/
def empty : InFlight := ⟨[]⟩

/-- The number of peers. -/
def size (s : InFlight) : Nat := s.hashes.length

/-- The peer is being placed. -/
def contains (s : InFlight) (hash : UInt64) : Bool := s.hashes.contains hash

/-- The set with a peer claimed, unless it is claimed already. -/
def acquire? (s : InFlight) (hash : UInt64) : Option InFlight :=
  if s.contains hash then none else some ⟨hash :: s.hashes⟩

/-- The set without a peer. -/
def release (s : InFlight) (hash : UInt64) : InFlight := ⟨s.hashes.erase hash⟩

/-- **Releasing a claim restores what was claimed before.** -/
theorem release_of_acquire? {s t : InFlight} {hash : UInt64} (h : s.acquire? hash = some t) :
    t.release hash = s := by
  unfold acquire? at h
  split at h
  · cases h
  · cases h
    rw [release, List.erase_cons_head]

end InFlight

end CubeRouting
