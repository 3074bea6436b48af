/-
  The service of a node: the engine with a clock, and the upkeep of its
  entries.
-/
import CubeRouting.Placement.Engine

namespace CubeRouting

/-- A running node. -/
structure Service where
  engine : Engine
  /-- The current time. -/
  now : Timestamp

namespace Service

/-- A node with empty tables. -/
def create (self : NodeRecord) (c : Config) (entropy : WordStream) (now : Timestamp) :
    Except RoutingError Service := do
  return ⟨← Engine.create self c entropy, now⟩

/-- The service at another time. -/
def atTime (s : Service) (now : Timestamp) : Service := { s with now := now }

def tables (s : Service) : RoutingTable := s.engine.tables

/-- The service with other tables. -/
def setTables (s : Service) (t : RoutingTable) : Service :=
  { s with engine := { s.engine with tables := t } }

/-- The tables changed, with what the change returns. -/
def change {α : Type} (s : Service) (f : RoutingTable → RoutingTable × α) : Service × α :=
  let (t, a) := f s.tables
  (s.setTables t, a)

/-! ## Notification -/

/-- A peer was seen now. -/
def notify (s : Service) (peer : NodeRecord) : Service × Outcome :=
  let (e, outcome) := s.engine.notify peer s.now
  ({ s with engine := e }, outcome)

/-- A list of peers arrived now. -/
def recoveryReply (s : Service) (peers : List NodeRecord) : Service × List Outcome :=
  let (e, outcomes) := s.engine.notifyAll s.now peers
  ({ s with engine := e }, outcomes)

/-! ## Liveness -/

/-- A pong arrived: the scores of the peer rise.  Returns the number of its
    entries. -/
def recordPong (s : Service) (hash : UInt64) : Service × Nat :=
  let t := s.engine.config.liveness
  s.change (·.updateEntries hash fun e => some (e.setLiveness (t.boosted (e.liveness t))))

/-- A pong is missing: the scores of the peer fall.  Returns the number of its
    entries. -/
def recordMissedPong (s : Service) (hash : UInt64) : Service × Nat :=
  let t := s.engine.config.liveness
  s.change (·.updateEntries hash fun e => some (e.setLiveness (t.decayed (e.liveness t))))

/-- The entries with a score of at most `threshold` removed. -/
def evictDead (s : Service) (threshold : Binary64) : Service × List Entry :=
  let t := s.engine.config.liveness
  s.change (·.removeWhere fun e => (e.liveness t).le threshold)

/-! ## Entries -/

/-- A peer removed from all tables. -/
def removePeer (s : Service) (hash : UInt64) : Service × List Entry :=
  s.change (·.removePeer hash)

/-- A peer removed from one table. -/
def removeFrom (s : Service) (kind : TableKind) (hash : UInt64) : Service × Option Entry :=
  let (t, removed) := (s.tables.get kind).remove hash
  (s.setTables (s.tables.set kind t), removed)

/-- The entries of a peer enabled or disabled.  Returns how many changed. -/
def setEnabled (s : Service) (hash : UInt64) (enabled : Bool) : Service × Nat :=
  s.change (·.updateEntries hash fun e =>
    if e.enabled = enabled then none else some { e with enabled := enabled })

/-- The entry of a peer in one table enabled or disabled.  Returns that entry. -/
def setEnabledIn (s : Service) (kind : TableKind) (hash : UInt64) (enabled : Bool) :
    Service × Option Entry :=
  let t := (s.tables.get kind).modify hash fun e => { e with enabled := enabled }
  (s.setTables (s.tables.set kind t), t.get? hash)

/-- All entries enabled or disabled. -/
def setAllEnabled (s : Service) (enabled : Bool) : Service :=
  s.setTables (s.tables.updateAll fun e => { e with enabled := enabled })

/-- A metadata value of the entry of a peer in one table set.  Returns the value
    before. -/
def setData (s : Service) (kind : TableKind) (hash : UInt64) (key : String) (value : MetaValue) :
    Except RoutingError (Service × Option MetaValue) :=
  match s.tables.setData? kind hash key value with
  | some (t, before) => .ok (s.setTables t, before)
  | none => .error (.peerNotFound hash kind)

/-- The address of a peer stored in all its entries.  Returns how many
    changed. -/
def updateAddress (s : Service) (peer : NodeRecord) : Service × Nat :=
  s.change (·.updateAddress peer)

end Service

end CubeRouting
