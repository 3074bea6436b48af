/-
  The placement of peers.

  `Engine.notify` takes a peer through the checks of the gate (self, shape, in
  flight, recent, hash collision, address conflict) and then offers it to the
  slots of its own in each table.  RT1 and RT2 are filled as a pair: RT2 only
  takes a peer that RT1 holds at a level below its RT1 level, and RT1 may leave
  such a peer to RT2.
-/
import CubeRouting.Placement.InFlight
import CubeRouting.Placement.Report
import CubeRouting.Placement.Standing
import CubeRouting.Policy
import CubeRouting.Recency.Window
import CubeRouting.Table.Basic

namespace CubeRouting

/-! ## Offers -/

/-- Tables together with the policy that fills some of them. -/
structure Shelf where
  tables : RoutingTable
  policy : Policy

namespace Shelf

/-- A candidate offered to a slot of a table, unless the table has it. -/
def offer (s : Shelf) (kind : TableKind) (i : SlotIndex) (candidate : Candidate) :
    Shelf × Placement :=
  let t := s.tables.get kind
  if t.contains candidate.node.hash then (s, .alreadyPresent)
  else
    let (t, policy, admission) := t.offer s.policy candidate i
    (⟨s.tables.set kind t, policy⟩, .considered i admission)

end Shelf

/-- A pair of routing tables and which of the two are filled. -/
structure TablePair where
  rt1 : TableKind
  rt2 : TableKind
  useRt1 : Bool
  useRt2 : Bool

namespace TablePair

/-- RT1 and RT2, as far as a configuration fills them. -/
def primary (c : Config) : TablePair := ⟨.rt1, .rt2, c.useRt1, c.useRt2⟩

/-- The secure tables, both filled. -/
def secure : TablePair := ⟨.secRt1, .secRt2, true, true⟩

/-- A candidate offered to the first table of a pair.  Without RT1 only
    siblings are; and with `leaveToRt2` no peer that RT2 covers below its RT1
    level is. -/
def placeRt1 (pair : TablePair) (leaveToRt2 : Bool) (cells : Cells) (candidate : Candidate)
    (s : Shelf) : Shelf × Placement :=
  if !(pair.useRt1 || pair.useRt2) then (s, .disabled)
  else if (s.tables.get pair.rt1).contains candidate.node.hash then (s, .alreadyPresent)
  else if !pair.useRt1 && !cells.sibling then (s, .excluded)
  else if leaveToRt2 && cells.rt2Below.isSome then (s, .excluded)
  else s.offer pair.rt1 cells.rt1 candidate

/-- A candidate offered to the second table of a pair, after the first had the
    given placement. -/
def placeRt2 (pair : TablePair) (cells : Cells) (candidate : Candidate) (first : Placement)
    (s : Shelf) : Shelf × Placement :=
  if !pair.useRt2 then (s, .disabled)
  else if (s.tables.get pair.rt2).contains candidate.node.hash then (s, .alreadyPresent)
  else
    match if first.holdsPeer then cells.rt2Below else cells.rt2 with
    | some i => s.offer pair.rt2 i candidate
    | none => (s, .notAdjacent)

/-- A candidate offered to both tables of a pair. -/
def place (pair : TablePair) (leaveToRt2 : Bool) (cells : Cells) (candidate : Candidate)
    (s : Shelf) : Shelf × Placement × Placement :=
  let (s, first) := pair.placeRt1 leaveToRt2 cells candidate s
  let (s, second) := pair.placeRt2 cells candidate first s
  (s, first, second)

end TablePair

/-! ## The engine -/

/-- A node with its tables and all that it remembers. -/
structure Engine where
  /-- The node. -/
  self : NodeRecord
  config : Config
  tables : RoutingTable
  /-- The policy of the neighborhood set. -/
  nsPolicy : Policy
  /-- The policy that RT1 and RT2 share. -/
  rtPolicy : Policy
  /-- The policy that the secure tables share, if they are filled. -/
  securePolicy : Option Policy
  inFlight : InFlight
  /-- The recently processed peers, if they are remembered. -/
  recent : Option RecencyWindow
  counters : Counters

/-- A fault of a request to a node. -/
inductive RoutingError where
  /-- The configuration is not valid. -/
  | config (fault : ConfigError)
  /-- The node's identifier does not have the configured shape. -/
  | selfShape (expected actual : Shape)
  /-- A table has no entry of a hash. -/
  | peerNotFound (hash : UInt64) (table : TableKind)
deriving DecidableEq

/-- The text of a fault. -/
def RoutingError.message : RoutingError → String
  | config fault => fault.message
  | selfShape expected actual =>
    "local identifier has shape " ++ actual.text ++ ", config expects " ++ expected.text
  | peerNotFound hash table => "peer 0x" ++ hexWord hash ++ " not found in " ++ table.name

namespace Engine

/-- A node with empty tables.  `entropy` gives the masks if the configuration
    has no seed. -/
def fresh (self : NodeRecord) (c : Config) (entropy : WordStream) : Engine where
  self := self
  config := c
  tables := .ofConfig c
  nsPolicy := .ofNs c
  rtPolicy := .ofRt c
  securePolicy := if c.useSecure then some (.ofSecure c entropy) else none
  inFlight := .empty
  recent := if 0 < c.retention then some (.empty c.retention c.recencyCapacity) else none
  counters := .zero

/-- A node with empty tables, if the configuration is valid and the node's
    identifier has the configured shape. -/
def create (self : NodeRecord) (c : Config) (entropy : WordStream) :
    Except RoutingError Engine := do
  c.validate.mapError .config
  let expected ← c.shape.mapError .config
  if self.id.shape ≠ expected then throw (.selfShape expected self.id.shape)
  return .fresh self c entropy

/-- The engine with an outcome counted. -/
def finish (e : Engine) (outcome : Outcome) : Engine × Outcome :=
  ({ e with counters := e.counters.record outcome }, outcome)

/-- The engine with a peer skipped. -/
def skip (e : Engine) (reason : SkipReason) : Engine × Outcome := e.finish (.skipped reason)

/-! ## Placement -/

/-- A candidate offered to the neighborhood set. -/
def placeNs (e : Engine) (candidate : Candidate) : Engine × Placement :=
  if e.config.useNs then
    let (s, placement) := Shelf.offer ⟨e.tables, e.nsPolicy⟩ .ns SlotRef.ns.index candidate
    ({ e with tables := s.tables, nsPolicy := s.policy }, placement)
  else (e, .disabled)

/-- A candidate offered to RT1 and RT2. -/
def placePrimary (e : Engine) (cells : Option Cells) (candidate : Candidate) :
    Engine × Placement × Placement :=
  match cells with
  | none => (e, .disabled, .disabled)
  | some cells =>
    let (s, first, second) :=
      (TablePair.primary e.config).place e.config.excludeRt2Scope cells candidate
        ⟨e.tables, e.rtPolicy⟩
    ({ e with tables := s.tables, rtPolicy := s.policy }, first, second)

/-- A candidate offered to the secure tables. -/
def placeSecure (e : Engine) (cells : Option Cells) (candidate : Candidate) :
    Engine × Placement × Placement :=
  match cells, e.securePolicy with
  | some cells, some policy =>
    let (s, first, second) :=
      TablePair.secure.place e.config.excludeRt2Scope cells candidate ⟨e.tables, policy⟩
    ({ e with tables := s.tables, securePolicy := some s.policy }, first, second)
  | _, _ => (e, .disabled, .disabled)

/-- A peer offered to all tables that it may belong to. -/
def place (e : Engine) (peer : NodeRecord) (standing : Standing) (time : Timestamp) :
    Engine × Report :=
  let candidate : Candidate := ⟨peer, e.self.id, standing.distance, time⟩
  let (e, ns) := e.placeNs candidate
  let (e, rt1, rt2) := e.placePrimary standing.cells candidate
  let (e, secRt1, secRt2) := e.placeSecure standing.cells candidate
  (e, { hash := peer.hash, distance := standing.distance, ns, rt1, rt2, secRt1, secRt2 })

/-! ## Notification -/

/-- Whether a peer was processed a short time ago, and the engine after this
    look-up. -/
def checkRecent (e : Engine) (hash : UInt64) (time : Timestamp) : Bool × Engine :=
  match e.recent with
  | none => (false, e)
  | some w =>
    let (recent, w) := w.check hash time
    (recent, { e with recent := some w })

/-- The engine with a peer recorded as processed. -/
def recordRecent (e : Engine) (hash : UInt64) (time : Timestamp) : Engine :=
  { e with recent := e.recent.map fun w => w.record hash time }

/-- Why the stored entries keep a peer out, if they do. -/
def conflict? (e : Engine) (peer : NodeRecord) : Option SkipReason :=
  let stored := e.tables.entriesOf peer.hash
  if stored.any fun s => s.node.id ≠ peer.id then some .hashCollision
  else if (stored.any fun s => s.node.address ≠ peer.address) && !e.config.updateAddresses then
    some .addressConflict
  else none

/-- A peer that is claimed goes through the rest of the gate and is placed. -/
def process (e : Engine) (peer : NodeRecord) (time : Timestamp) : Engine × Outcome :=
  let (recent, e) := e.checkRecent peer.hash time
  if recent then e.skip .recentlyProcessed
  else
    match e.conflict? peer, Standing.compute e.config e.self.id peer.id with
    | some reason, _ => e.skip reason
    | none, .error _ => e.skip .shapeMismatch
    | none, .ok standing =>
      let e := { e with tables := (e.tables.updateAddress peer).1 }
      let (e, report) := e.place peer standing time
      (e.recordRecent peer.hash time).finish (.processed report)

/-- The engine after it was notified of a peer, and what came of it. -/
def notify (e : Engine) (peer : NodeRecord) (time : Timestamp) : Engine × Outcome :=
  if peer.hash = e.self.hash then e.skip .selfNotification
  else if peer.id.shape ≠ e.self.id.shape then e.skip .shapeMismatch
  else
    match e.inFlight.acquire? peer.hash with
    | none => e.skip .alreadyInProgress
    | some claimed =>
      let (e, outcome) := { e with inFlight := claimed }.process peer time
      ({ e with inFlight := e.inFlight.release peer.hash }, outcome)

/-- The engine after it was notified of several peers one by one. -/
def notifyAll (e : Engine) (time : Timestamp) : List NodeRecord → Engine × List Outcome
  | [] => (e, [])
  | peer :: peers =>
    let (e, outcome) := e.notify peer time
    let (e, outcomes) := e.notifyAll time peers
    (e, outcome :: outcomes)

/-- Two notifications of one peer at once: the second arrives while the first
    is being placed, and returns before it. -/
def notifyTwice (e : Engine) (peer : NodeRecord) (time : Timestamp) :
    Engine × Outcome × Outcome :=
  let held := e.inFlight
  let (e, second) :=
    { e with inFlight := (held.acquire? peer.hash).getD held }.notify peer time
  let (e, first) := { e with inFlight := held }.notify peer time
  (e, second, first)

end Engine

end CubeRouting
