/-
  The 64-bit hash of an identifier.

  The hash is the keyed hash of a message made of the cells of the identifier:
  its coordinates if it has at most as many dimensions as digits, else its
  digits.  A cell is cut into chunks of 64 bits, and a chunk is the word that
  it denotes.  One key is made of the shape.
-/
import CubeRouting.Identifier.Cells
import CubeRouting.Keyed.SipHash

namespace CubeRouting

/-- A list cut into pieces of `k + 1` elements; the last may be shorter. -/
def chunks {α : Type} (k : Nat) : List α → List (List α)
  | [] => []
  | x :: xs => (x :: xs.take k) :: chunks k (xs.drop k)
termination_by xs => xs.length
decreasing_by
  rw [List.length_drop, List.length_cons]
  omega

/-- The words of a cell, each the number that a chunk of it denotes. -/
def cellWords (cell : BitString) : List UInt64 :=
  (chunks (wordBits - 1) cell).map fun chunk => UInt64.ofNat (BitString.toNat chunk)

namespace Identifier

/-- The cells that the hash reads. -/
def hashCells (x : Identifier) : List BitString :=
  if x.dimensions ≤ x.digits then (List.range x.dimensions).map x.coordinateBits
  else (List.range x.digits).map x.digitBits

def hashMessage (x : Identifier) : List UInt64 := x.hashCells.flatMap cellWords

/-- The key that depends on the shape. -/
def shapeKey (s : Shape) : UInt64 :=
  UInt64.ofNat s.dimensions <<< 32 ||| UInt64.ofNat s.digits

/-- The key that all identifiers share. -/
def fixedKey : UInt64 := 0x68785f6964656e74

def hash (x : Identifier) : UInt64 := SipHash.hash (shapeKey x.shape) fixedKey x.hashMessage

end Identifier

end CubeRouting
