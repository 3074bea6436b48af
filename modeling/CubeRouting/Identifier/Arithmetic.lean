/-
  Arithmetic of identifiers: bitwise operations, unit steps along one
  dimension, and the number of leading digits that two identifiers share.

  A unit step at digit `d` of a coordinate adds or subtracts one at that
  binary digit.  The carry runs toward digit 0: it flips the bits that pass it
  on and the one that stops it, and is dropped past digit 0, so coordinates
  wrap around.
-/
import CubeRouting.Identifier.Cells

namespace CubeRouting

namespace Identifier

/-! ## Bitwise operations -/

/-- The operation `op` on the bits of two identifiers of one shape. -/
@[inline] def zipBits (op : Bool → Bool → Bool) (x y : Identifier) :
    Except IdentifierError Identifier :=
  if h : x.shape = y.shape then
    .ok {
      shape := x.shape
      bits := Array.zipWith op x.bits y.bits
      size_bits := by simp [x.size_bits, y.size_bits, h] }
  else .error (.shapeMismatch x.shape y.shape)

/-- The bits in which two identifiers differ. -/
def xor (x y : Identifier) : Except IdentifierError Identifier := zipBits (· ^^ ·) x y

/-- The bits that two identifiers both have set. -/
def and (x y : Identifier) : Except IdentifierError Identifier := zipBits (· && ·) x y

/-! ## Unit steps -/

/-- The digits that a step at digit `d` of coordinate `c` flips, `d` first:
    those that pass the carry on and the one that stops it.  `up` tells an
    addition from a subtraction. -/
def carryRun (x : Identifier) (c : Nat) (up : Bool) : Nat → List Nat
  | 0 => [0]
  | d + 1 => if x.bit (d + 1) c = up then (d + 1) :: carryRun x c up d else [d + 1]

/-- One unit added (`up`) or subtracted at digit `d` of coordinate `c`. -/
def step (x : Identifier) (up : Bool) (c d : Nat) : Except IdentifierError Identifier := do
  checkIndex .coordinate c x.dimensions
  checkIndex .digit d x.digits
  return x.overwrite ((x.carryRun c up d).map (·, c)) fun d c => !x.bit d c

/-- One unit added at digit `d` of coordinate `c`. -/
def stepUp (x : Identifier) (c d : Nat) : Except IdentifierError Identifier := x.step true c d

/-- One unit subtracted at digit `d` of coordinate `c`. -/
def stepDown (x : Identifier) (c d : Nat) : Except IdentifierError Identifier := x.step false c d

/-! ## Shared digits -/

/-- Two identifiers of one number of dimensions have the same digit `d`. -/
def sameDigit (x y : Identifier) (d : Nat) : Bool :=
  (List.range x.dimensions).all fun c => x.bit d c == y.bit d c

/-- How many of the digits `d`, …, `d + k - 1` come before the first that
    differs. -/
def sharedFrom (x y : Identifier) (d : Nat) : Nat → Nat
  | 0 => 0
  | k + 1 => if x.sameDigit y d then sharedFrom x y (d + 1) k + 1 else 0

/-- How many leading digits two identifiers share; the shorter one bounds
    their number. -/
def commonPrefix (x y : Identifier) : Except IdentifierError Nat :=
  if x.dimensions = y.dimensions then .ok (x.sharedFrom y 0 (min x.digits y.digits))
  else .error (.dimensionMismatch x.dimensions y.dimensions)

end Identifier

end CubeRouting
