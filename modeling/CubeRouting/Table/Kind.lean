/-
  The five tables of a node.
-/

namespace CubeRouting

/-- A table of the node. -/
inductive TableKind where
  /-- The neighborhood set. -/
  | ns
  /-- The primary routing table: a column per digit value. -/
  | rt1
  /-- The secondary routing table: a column per dimension. -/
  | rt2
  /-- The secure copy of RT1. -/
  | secRt1
  /-- The secure copy of RT2. -/
  | secRt2
deriving DecidableEq

namespace TableKind

/-- The tables in their fixed order. -/
def all : List TableKind := [ns, rt1, rt2, secRt1, secRt2]

/-- The position of a table in the fixed order. -/
def rank : TableKind → Nat
  | ns => 0
  | rt1 => 1
  | rt2 => 2
  | secRt1 => 3
  | secRt2 => 4

/-- The table is a secure copy. -/
def isSecure : TableKind → Bool
  | secRt1 | secRt2 => true
  | ns | rt1 | rt2 => false

def name : TableKind → String
  | ns => "NS"
  | rt1 => "RT1"
  | rt2 => "RT2"
  | secRt1 => "SecRT1"
  | secRt2 => "SecRT2"

end TableKind

end CubeRouting
