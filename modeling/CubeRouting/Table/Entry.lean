/-
  Entries of a table: a peer in a slot, with what is known about it.
-/
import CubeRouting.Config.Tunables
import CubeRouting.Node
import CubeRouting.Table.Kind
import CubeRouting.Timestamp

namespace CubeRouting

/-! ## Slots -/

/-- The place of a slot in its table. -/
structure SlotIndex where
  level : Nat
  column : Nat
deriving DecidableEq

namespace SlotIndex

/-- Slots are ordered by level, then by column. -/
instance : Ord SlotIndex := ⟨compareLex (compareOn level) (compareOn column)⟩

instance : Std.TransOrd SlotIndex :=
  inferInstanceAs (Std.TransCmp (compareLex (compareOn level) (compareOn column)))

instance : Std.LawfulEqOrd SlotIndex where
  eq_of_compare {a b} h := by
    have h' : compareLex (compareOn level) (compareOn column) a b = .eq := h
    rw [compareLex_eq_eq] at h'
    simp only [compareOn, Nat.compare_eq_eq] at h'
    cases a
    cases b
    simp_all

end SlotIndex

/-- A slot of a table. -/
structure SlotRef where
  table : TableKind
  index : SlotIndex
deriving DecidableEq

/-- The one slot of the neighborhood set. -/
def SlotRef.ns : SlotRef := ⟨.ns, 0, 0⟩

/-! ## Metadata -/

/-- A value attached to an entry. -/
inductive MetaValue where
  | float (x : Binary64)
  | int (i : Int)
  | text (s : String)
  | flag (b : Bool)
deriving DecidableEq

/-- The value as a number, if it is one. -/
def MetaValue.number? : MetaValue → Option Binary64
  | float x => some x
  | int i => some (.ofInt i)
  | text _ | flag _ => none

/-- The values attached to an entry, by key. -/
abbrev Metadata := List (String × MetaValue)

/-- The metadata with the value of a key set. -/
def Metadata.put (data : Metadata) (key : String) (value : MetaValue) : Metadata :=
  (key, value) :: data.filter (·.1 != key)

/-! ## Entries -/

/-- A peer in a slot. -/
structure Entry where
  node : NodeRecord
  /-- The distance to the node when the peer was admitted. -/
  distance : Binary64
  /-- When the peer was admitted. -/
  admittedAt : Timestamp
  slot : SlotRef
  /-- The entry is used for routing. -/
  enabled : Bool
  /-- The entry was taken out of its slot. -/
  discarded : Bool
  metadata : Metadata
deriving DecidableEq

namespace Entry

/-- The key of the peer. -/
abbrev hash (e : Entry) : UInt64 := e.node.hash

/-- A peer that is just admitted. -/
def fresh (node : NodeRecord) (distance : Binary64) (time : Timestamp) (slot : SlotRef) :
    Entry where
  node := node
  distance := distance
  admittedAt := time
  slot := slot
  enabled := true
  discarded := false
  metadata := []

/-- The entry as it is handed out after it left its slot. -/
def discard (e : Entry) : Entry := { e with discarded := true, enabled := false }

/-- The entry with another address. -/
def withAddress (e : Entry) (address : Address) : Entry :=
  { e with node := { e.node with address := address } }

def data? (e : Entry) (key : String) : Option MetaValue := e.metadata.lookup key

def setData (e : Entry) (key : String) (value : MetaValue) : Entry :=
  { e with metadata := e.metadata.put key value }

/-! ## Liveness -/

/-- The metadata key of liveness scores. -/
def livenessKey : String := "liveness"

/-- The liveness score of an entry, or the initial one if none is recorded. -/
def liveness (e : Entry) (t : LivenessTunables) : Binary64 :=
  ((e.data? livenessKey).bind MetaValue.number?).getD t.initial

def setLiveness (e : Entry) (score : Binary64) : Entry := e.setData livenessKey (.float score)

end Entry

end CubeRouting
