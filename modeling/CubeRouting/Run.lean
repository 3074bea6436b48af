/-
  Runs of a node: the requests that it serves, one after another.

  Peers are keyed by any function of their identifiers; the node keys them by
  `Identifier.hash`.
-/
import CubeRouting.Service

namespace CubeRouting

/-- A request to a node. -/
inductive Request where
  /-- Time passed. -/
  | setTime (now : Timestamp)
  /-- A peer was seen. -/
  | notify (id : Identifier) (address : Address)
  /-- A list of peers arrived. -/
  | recoveryReply (peers : List (Identifier × Address))
  /-- A pong arrived. -/
  | recordPong (hash : UInt64)
  /-- A pong is missing. -/
  | recordMissedPong (hash : UInt64)
  /-- Remove the entries with a score of at most `threshold`. -/
  | evictDead (threshold : Binary64)
  /-- Remove a peer. -/
  | removePeer (hash : UInt64)
  /-- Remove a peer from one table. -/
  | removeFrom (kind : TableKind) (hash : UInt64)
  /-- Remove the entries that satisfy a condition. -/
  | removeWhere (p : Entry → Bool)
  /-- Enable or disable the entries of a peer. -/
  | setEnabled (hash : UInt64) (enabled : Bool)
  /-- Enable or disable the entry of a peer in one table. -/
  | setEnabledIn (kind : TableKind) (hash : UInt64) (enabled : Bool)
  /-- Enable or disable all entries. -/
  | setAllEnabled (enabled : Bool)
  /-- Set a metadata value of the entry of a peer in one table. -/
  | setData (kind : TableKind) (hash : UInt64) (key : String) (value : MetaValue)
  /-- A peer moved. -/
  | updateAddress (id : Identifier) (address : Address)

namespace Request

/-- The peers that a request brings. -/
def peers : Request → List (Identifier × Address)
  | notify id address => [(id, address)]
  | recoveryReply peers => peers
  | _ => []

/-- A request with its peers one by one. -/
def singles : Request → List Request
  | recoveryReply peers => peers.map fun p => .notify p.1 p.2
  | r => [r]

end Request

/-- An answer to a request. -/
inductive Answer where
  | done
  | outcomes (outcomes : List Outcome)
  | changed (n : Nat)
  | entries (entries : List Entry)
  | before (value : Option MetaValue)
  | failed (fault : RoutingError)

namespace Service

/-- The service after a request, and its answer. -/
def handle (key : Identifier → UInt64) (s : Service) : Request → Service × Answer
  | .setTime now => (s.atTime now, .done)
  | .notify id address =>
    let (s, outcome) := s.notify (.keyed key id address)
    (s, .outcomes [outcome])
  | .recoveryReply peers =>
    let (s, outcomes) := s.recoveryReply (peers.map fun p => .keyed key p.1 p.2)
    (s, .outcomes outcomes)
  | .recordPong hash =>
    let (s, n) := s.recordPong hash
    (s, .changed n)
  | .recordMissedPong hash =>
    let (s, n) := s.recordMissedPong hash
    (s, .changed n)
  | .evictDead threshold =>
    let (s, removed) := s.evictDead threshold
    (s, .entries removed)
  | .removePeer hash =>
    let (s, removed) := s.removePeer hash
    (s, .entries removed)
  | .removeFrom kind hash =>
    let (s, removed) := s.removeFrom kind hash
    (s, .entries removed.toList)
  | .removeWhere p =>
    let (s, removed) := s.change (·.removeWhere p)
    (s, .entries removed)
  | .setEnabled hash enabled =>
    let (s, n) := s.setEnabled hash enabled
    (s, .changed n)
  | .setEnabledIn kind hash enabled =>
    let (s, entry) := s.setEnabledIn kind hash enabled
    (s, .entries entry.toList)
  | .setAllEnabled enabled => (s.setAllEnabled enabled, .done)
  | .setData kind hash k value =>
    match s.setData kind hash k value with
    | .ok (s, before) => (s, .before before)
    | .error fault => (s, .failed fault)
  | .updateAddress id address =>
    let (s, n) := s.updateAddress (.keyed key id address)
    (s, .changed n)

/-- The service after a list of requests. -/
def run (key : Identifier → UInt64) (s : Service) (rs : List Request) : Service :=
  rs.foldl (fun s r => (s.handle key r).1) s

end Service

end CubeRouting
