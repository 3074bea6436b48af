/-
  Where a peer lies relative to the node.

  In RT1 a peer belongs to the level of the first digit in which it differs
  from the node, counted from the last digit, and to the column of that digit.
  It is a sibling if that digit differs in one bit.  In RT2 a peer belongs to
  a neighboring hypercube: at level `l` and dimension `c` it shares all but
  its last `l` digits with the node stepped up or down along `c` at the last
  of the shared digits.  `Rt2Scan` is the range of levels at which that can
  happen, and `Rt2Scan.matchingLevel` the lowest level at which it does.
-/
import CubeRouting.Identifier.Arithmetic

namespace CubeRouting

/-! ## Neighboring hypercubes -/

/-- Levels at which a peer may be in a neighboring hypercube along one
    dimension. -/
structure Rt2Scan where
  dimension : Nat
  minLevel : Nat
  maxLevel : Nat
deriving DecidableEq

namespace Rt2Scan

/-- The peer shares all but its last `level` digits with the node stepped up or
    down along the dimension. -/
def matchesAt (scan : Rt2Scan) (self peer : Identifier) (level : Nat) :
    Except IdentifierError Bool := do
  let shared := self.digits - level
  let up ← self.stepUp scan.dimension (shared - 1)
  let down ← self.stepDown scan.dimension (shared - 1)
  return shared ≤ (← peer.commonPrefix up) || shared ≤ (← peer.commonPrefix down)

/-- The levels of the range that lie below a bound. -/
def levelsBelow (scan : Rt2Scan) (bound : Nat) : List Nat :=
  List.range' scan.minLevel (min (scan.maxLevel + 1) bound - scan.minLevel)

/-- The lowest level below a bound at which the peer is in a neighboring
    hypercube. -/
def matchingLevel (scan : Rt2Scan) (self peer : Identifier) (bound : Nat) :
    Except IdentifierError (Option Nat) :=
  (scan.levelsBelow bound).findM? (scan.matchesAt self peer)

end Rt2Scan

/-! ## Adjacency -/

/-- The place of a peer relative to the node. -/
structure Adjacency where
  /-- The number of leading digits that the two share. -/
  shared : Nat
  rt1Level : Nat
  rt1Column : Nat
  /-- The first digit that differs does so in one bit. -/
  sibling : Bool
  /-- The levels of RT2 to look at, for siblings. -/
  rt2 : Option Rt2Scan
deriving DecidableEq

namespace Adjacency

/-- Digit `d` of a difference has no bit set outside dimension `c`. -/
def isAlong (difference : Identifier) (c d : Nat) : Bool :=
  (List.range difference.dimensions).all fun i => i == c || !difference.bit d i

/-- The first of the digits `d`, …, `d + k - 1` of a difference with a bit set
    outside dimension `c`, or `d + k`. -/
def runEnd (difference : Identifier) (c d : Nat) : Nat → Nat
  | 0 => d
  | k + 1 => if isAlong difference c d then runEnd difference c (d + 1) k else d

/-- The levels that RT2 looks at for a sibling whose first difference is in
    digit `shared`. -/
def siblingScan (difference : Identifier) (shared : Nat) : Rt2Scan :=
  let dimension := (difference.digitBits shared).idxOf true
  let last := runEnd difference dimension shared (difference.digits - shared)
  ⟨dimension, difference.digits - last, difference.digits - 1 - shared⟩

/-- The place of a peer relative to the node. -/
def compute (self peer : Identifier) : Except IdentifierError Adjacency := do
  let difference ← self.xor peer
  let shared ← self.commonPrefix peer
  if self.digits ≤ shared then
    throw (.indexOutOfRange .differingDigit shared self.digits)
  let sibling := (← difference.digitOnes shared) == 1
  let column ← peer.digitNat shared
  return {
    shared
    rt1Level := self.digits - 1 - shared
    rt1Column := column
    sibling
    rt2 := if sibling then some (siblingScan difference shared) else none }

end Adjacency

end CubeRouting
