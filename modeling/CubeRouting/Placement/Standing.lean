/-
  Where a peer may be placed: the cells of the tables that are its own,
  whatever the tables hold.

  A peer has one RT1 cell.  It may have RT2 cells at several levels; the tables
  use the lowest, or the lowest below its RT1 level.
-/
import CubeRouting.Config.Basic
import CubeRouting.Placement.Adjacency
import CubeRouting.Table.Entry

namespace CubeRouting

/-- The cells of a peer in the routing tables. -/
structure Cells where
  rt1 : SlotIndex
  /-- The first digit in which the peer differs does so in one bit. -/
  sibling : Bool
  /-- The lowest RT2 cell. -/
  rt2 : Option SlotIndex
  /-- The lowest RT2 cell below the level of the RT1 cell. -/
  rt2Below : Option SlotIndex
deriving DecidableEq

namespace Cells

/-- The lowest RT2 cell below a level. -/
def rt2At (scan : Rt2Scan) (self peer : Identifier) (bound : Nat) :
    Except IdentifierError (Option SlotIndex) := do
  return (← scan.matchingLevel self peer bound).map (⟨·, scan.dimension⟩)

/-- The cells of a peer, as the node sees it. -/
def compute (self peer : Identifier) : Except IdentifierError Cells := do
  let a ← Adjacency.compute self peer
  let (rt2, rt2Below) ← match a.rt2 with
    | none => pure (none, none)
    | some scan =>
      pure (← rt2At scan self peer (scan.maxLevel + 1), ← rt2At scan self peer a.rt1Level)
  return { rt1 := ⟨a.rt1Level, a.rt1Column⟩, sibling := a.sibling, rt2, rt2Below }

end Cells

/-- Where a peer stands. -/
structure Standing where
  /-- The distance to the node. -/
  distance : Binary64
  /-- The cells, if routing tables are filled. -/
  cells : Option Cells

/-- Where a peer stands, as the node sees it. -/
def Standing.compute (c : Config) (self peer : Identifier) : Except IdentifierError Standing := do
  let distance ← c.metric.measure self peer
  let cells ← if c.usesRoutingTables then some <$> Cells.compute self peer else pure none
  return { distance, cells }

end CubeRouting
