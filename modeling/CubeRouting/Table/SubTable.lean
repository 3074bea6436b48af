/-
  One table: a grid of slots that hold a bounded number of entries, with an
  index of the entries by hash.

  Only slots with entries are stored.  `slot` is the view of the grid, and
  every operation keeps grid and index in step.
-/
import CubeRouting.Table.Entry
import Std.Data.ExtTreeMap

namespace CubeRouting

structure SubTable where
  kind : TableKind
  /-- The number of rows. -/
  levels : Nat
  /-- The number of columns in a row. -/
  columns : Nat
  /-- The number of entries that a slot may hold. -/
  capacity : Nat
  /-- The entries of the slots that have some, in slot order. -/
  slots : Std.ExtTreeMap SlotIndex (List Entry)
  /-- The slot of each hash. -/
  index : Std.ExtTreeMap UInt64 SlotIndex

namespace SubTable

/-- A table without entries. -/
def empty (kind : TableKind) (levels columns capacity : Nat) : SubTable where
  kind := kind
  levels := levels
  columns := columns
  capacity := capacity
  slots := ∅
  index := ∅

/-! ## Reading -/

def slot (t : SubTable) (i : SlotIndex) : List Entry := t.slots[i]?.getD []

@[simp] theorem slot_empty (kind : TableKind) (levels columns capacity : Nat) (i : SlotIndex) :
    (empty kind levels columns capacity).slot i = [] := by
  rw [slot, empty, Std.ExtTreeMap.getElem?_empty, Option.getD_none]

/-- The number of entries. -/
def size (t : SubTable) : Nat := t.index.size

/-- There are no entries. -/
def isEmpty (t : SubTable) : Bool := t.index.isEmpty

/-- The number of slots with entries. -/
def occupiedSlots (t : SubTable) : Nat := t.slots.size

/-- A peer with this hash has an entry. -/
def contains (t : SubTable) (hash : UInt64) : Bool := t.index.contains hash

def get? (t : SubTable) (hash : UInt64) : Option Entry := do
  let i ← t.index[hash]?
  (t.slot i).find? (·.hash == hash)

/-- All entries, slot by slot. -/
def entries (t : SubTable) : List Entry := t.slots.toList.flatMap (·.2)

/-! ## Changing entries -/

/-- The table with the entry of a hash changed.  The change must keep the
    hash. -/
def modify (t : SubTable) (hash : UInt64) (f : Entry → Entry) : SubTable :=
  match t.index[hash]? with
  | none => t
  | some i =>
    { t with slots := t.slots.modify i (·.map fun e => if e.hash = hash then f e else e) }

/-- The table with all entries changed.  The change must keep the hashes. -/
def modifyAll (t : SubTable) (f : Entry → Entry) : SubTable :=
  { t with slots := t.slots.map fun _ members => members.map f }

/-! ## Adding and removing entries -/

/-- The members of a slot stored again, or the slot dropped if it has none. -/
def setSlot (t : SubTable) (i : SlotIndex) (members : List Entry) : SubTable :=
  { t with slots := if members.isEmpty then t.slots.erase i else t.slots.insert i members }

theorem slot_setSlot (t : SubTable) (i j : SlotIndex) (members : List Entry) :
    (t.setSlot i members).slot j = if i = j then members else t.slot j := by
  unfold setSlot slot
  by_cases h : i = j
  · subst h
    cases members with
    | nil => simp only [List.isEmpty_nil, if_true, Std.ExtTreeMap.getElem?_erase_self,
        Option.getD_none]
    | cons e members => simp only [List.isEmpty_cons, Bool.false_eq_true, if_false, if_true,
        Std.ExtTreeMap.getElem?_insert_self, Option.getD_some]
  · have hc : ¬compare i j = .eq := fun hc => h (Std.LawfulEqCmp.eq_of_compare hc)
    cases members with
    | nil => simp only [List.isEmpty_nil, if_true, Std.ExtTreeMap.getElem?_erase, hc, h, if_false]
    | cons e members => simp only [List.isEmpty_cons, Bool.false_eq_true, if_false,
        Std.ExtTreeMap.getElem?_insert, hc, h]

/-- The table without the entry of a hash, and that entry. -/
def remove (t : SubTable) (hash : UInt64) : SubTable × Option Entry :=
  match t.index[hash]? with
  | none => (t, none)
  | some i =>
    let members := t.slot i
    let rest := members.eraseP (·.hash == hash)
    ({ t.setSlot i rest with index := t.index.erase hash },
      (members.find? (·.hash == hash)).map Entry.discard)

/-- The slot of an entry has room for it, and the table does not have its
    peer. -/
def accepts (t : SubTable) (e : Entry) : Bool :=
  (t.slot e.slot.index).length < t.capacity && !t.contains e.hash

/-- The table with an entry added at a position of its slot, at the end if the
    slot has fewer members.  A table that does not accept the entry stays as it
    is. -/
def insert (t : SubTable) (position : Nat) (e : Entry) : SubTable :=
  if t.accepts e then
    let i := e.slot.index
    let members := t.slot i
    { t.setSlot i (members.insertIdx (min position members.length) e) with
      index := t.index.insert e.hash i }
  else t

/-- The table without the entries of a list of hashes, and those entries. -/
def removeAll (t : SubTable) : List UInt64 → SubTable × List Entry
  | [] => (t, [])
  | hash :: hashes =>
    let (t, entry) := t.remove hash
    let (t, entries) := t.removeAll hashes
    (t, entry.toList ++ entries)

/-- The table without the entries that satisfy a condition, and those
    entries. -/
def removeWhere (t : SubTable) (p : Entry → Bool) : SubTable × List Entry :=
  t.removeAll ((t.entries.filter p).map (·.hash))

end SubTable

end CubeRouting
