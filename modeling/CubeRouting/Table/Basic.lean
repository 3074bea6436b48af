/-
  The routing state of a node: its five tables.

  Operations on all tables go through them in the fixed order, and what they
  return is in that order too.
-/
import CubeRouting.Config.Basic
import CubeRouting.Table.SubTable

namespace CubeRouting

/-- The five tables of a node. -/
structure RoutingTable where
  ns : SubTable
  rt1 : SubTable
  rt2 : SubTable
  secRt1 : SubTable
  secRt2 : SubTable

namespace RoutingTable

/-! ## The tables -/

/-- The number of columns of RT1: one per digit value, as far as 64 bits can
    count. -/
def digitColumns (dimensions : Nat) : Nat :=
  if dimensions < wordBits then Nat.pow 2 dimensions else Nat.pow 2 wordBits - 1

/-- Empty tables of the sizes that a configuration asks for. -/
def ofConfig (c : Config) : RoutingTable where
  ns := .empty .ns 1 1 c.nsSize
  rt1 := .empty .rt1 c.digits (digitColumns c.dimensions) c.slotSize
  rt2 := .empty .rt2 c.digits c.dimensions c.slotSize
  secRt1 := .empty .secRt1 c.digits (digitColumns c.dimensions) c.slotSize
  secRt2 := .empty .secRt2 c.digits c.dimensions c.slotSize

def get (t : RoutingTable) : TableKind → SubTable
  | .ns => t.ns
  | .rt1 => t.rt1
  | .rt2 => t.rt2
  | .secRt1 => t.secRt1
  | .secRt2 => t.secRt2

/-- The tables with the one of a kind replaced. -/
def set (t : RoutingTable) (kind : TableKind) (s : SubTable) : RoutingTable :=
  match kind with
  | .ns => { t with ns := s }
  | .rt1 => { t with rt1 := s }
  | .rt2 => { t with rt2 := s }
  | .secRt1 => { t with secRt1 := s }
  | .secRt2 => { t with secRt2 := s }

theorem get_set (t : RoutingTable) (kind other : TableKind) (s : SubTable) :
    (t.set kind s).get other = if other = kind then s else t.get other := by
  cases kind <;> cases other <;> rfl

theorem ext_get {t t' : RoutingTable} (h : ∀ kind, t.get kind = t'.get kind) :
    t = t' := by
  rcases t with ⟨ns, rt1, rt2, secRt1, secRt2⟩
  rcases t' with ⟨ns', rt1', rt2', secRt1', secRt2'⟩
  obtain rfl : ns = ns' := h .ns
  obtain rfl : rt1 = rt1' := h .rt1
  obtain rfl : rt2 = rt2' := h .rt2
  obtain rfl : secRt1 = secRt1' := h .secRt1
  obtain rfl : secRt2 = secRt2' := h .secRt2
  rfl

/-- All tables changed, with what each change returns. -/
def visit {α : Type} (t : RoutingTable) (f : SubTable → SubTable × α) : RoutingTable × List α :=
  let (ns, a) := f t.ns
  let (rt1, b) := f t.rt1
  let (rt2, c) := f t.rt2
  let (secRt1, d) := f t.secRt1
  let (secRt2, e) := f t.secRt2
  ({ ns, rt1, rt2, secRt1, secRt2 }, [a, b, c, d, e])

/-! ## Reading -/

def allEntries (t : RoutingTable) : List Entry :=
  TableKind.all.flatMap fun kind => (t.get kind).entries

/-- The entries of a hash, at most one per table. -/
def entriesOf (t : RoutingTable) (hash : UInt64) : List Entry :=
  TableKind.all.filterMap fun kind => (t.get kind).get? hash

/-- The number of entries of all tables. -/
def totalEntries (t : RoutingTable) : Nat :=
  TableKind.all.foldl (fun n kind => n + (t.get kind).size) 0

/-- How full a table is. -/
structure TableStats where
  entries : Nat
  occupiedSlots : Nat
deriving DecidableEq

/-- How full each of the tables is. -/
def stats (t : RoutingTable) : List TableStats :=
  TableKind.all.map fun kind => ⟨(t.get kind).size, (t.get kind).occupiedSlots⟩

/-- A metadata value of the entry of a hash in one table. -/
def data? (t : RoutingTable) (kind : TableKind) (hash : UInt64) (key : String) :
    Option MetaValue := do
  (← (t.get kind).get? hash).data? key

/-! ## Changing entries -/

/-- The entry of a hash changed in all tables where `f` gives a new one, and the
    number of these. -/
def updateEntries (t : RoutingTable) (hash : UInt64) (f : Entry → Option Entry) :
    RoutingTable × Nat :=
  let (t, changed) := t.visit fun s =>
    match (s.get? hash).bind f with
    | some e => (s.modify hash fun _ => e, true)
    | none => (s, false)
  (t, changed.count true)

/-- All entries of all tables changed. -/
def updateAll (t : RoutingTable) (f : Entry → Entry) : RoutingTable :=
  (t.visit fun s => (s.modifyAll f, ())).1

/-- The address of a peer stored in all its entries, and the number of entries
    that changed. -/
def updateAddress (t : RoutingTable) (peer : NodeRecord) : RoutingTable × Nat :=
  t.updateEntries peer.hash fun e =>
    if e.node.id = peer.id ∧ e.node.address ≠ peer.address then
      some (e.withAddress peer.address)
    else none

/-- A metadata value of the entry of a hash in one table set, with the value
    before; `none` if there is no such entry. -/
def setData? (t : RoutingTable) (kind : TableKind) (hash : UInt64) (key : String)
    (value : MetaValue) : Option (RoutingTable × Option MetaValue) := do
  let e ← (t.get kind).get? hash
  return (t.set kind ((t.get kind).modify hash (·.setData key value)), e.data? key)

/-! ## Removing entries -/

def removePeer (t : RoutingTable) (hash : UInt64) : RoutingTable × List Entry :=
  let (t, removed) := t.visit (·.remove hash)
  (t, removed.reduceOption)

/-- The entries that satisfy a condition removed from all tables. -/
def removeWhere (t : RoutingTable) (p : Entry → Bool) : RoutingTable × List Entry :=
  let (t, removed) := t.visit (·.removeWhere p)
  (t, removed.flatten)

end RoutingTable

end CubeRouting
