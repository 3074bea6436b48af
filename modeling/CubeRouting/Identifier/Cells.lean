/-
  The two ways to read and write an identifier: by digits and by coordinates.

  A cell is a digit or a coordinate.  Writing takes a 64-bit word and fails if
  the word has a bit set that the cell has no place for; the bits of a wider
  cell beyond the 64th are cleared.
-/
import CubeRouting.Identifier.Basic

namespace CubeRouting

/-- The number of bits of a word. -/
def wordBits : Nat := 64

namespace Identifier

/-- A word has to fit a cell of `bits` bits. -/
def checkFits (value : UInt64) (bits : Nat) : Except IdentifierError Unit :=
  if bits < wordBits ∧ Nat.pow 2 bits ≤ value.toNat then .error (.valueTooWide value.toNat bits)
  else .ok ()

/-- Bit `i` of a word, counted from the least significant. -/
def wordBit (value : UInt64) (i : Nat) : Bool := i < wordBits && value.toNat.testBit i

/-! ## Digits -/

/-- Digit `d` in the arithmetic of `R`. -/
@[specialize] def digit {R : Type} [Scalar R] (x : Identifier) (d : Nat) :
    Except IdentifierError R := do
  checkIndex .digit d x.digits
  return BitString.toScalar (x.digitBits d).reverse

/-- The number that the first 64 bits of digit `d` denote. -/
def digitWord (x : Identifier) (d : Nat) : Nat :=
  BitString.toNat ((x.digitBits d).take wordBits).reverse

/-- Digit `d` as a number, for identifiers of fewer than 64 dimensions. -/
def digitNat (x : Identifier) (d : Nat) : Except IdentifierError Nat := do
  if wordBits ≤ x.dimensions then throw (.overflow x.dimensions wordBits)
  checkIndex .digit d x.digits
  return x.digitWord d

/-- The identifier with digit `d` replaced. -/
def setDigit (x : Identifier) (d : Nat) (value : UInt64) : Except IdentifierError Identifier := do
  checkIndex .digit d x.digits
  checkFits value x.dimensions
  return x.overwrite ((List.range x.dimensions).map (d, ·)) fun _ c => wordBit value c

/-- How many bits of digit `d` are set. -/
def digitOnes (x : Identifier) (d : Nat) : Except IdentifierError Nat := do
  checkIndex .digit d x.digits
  return (x.digitBits d).count true

def digitBit (x : Identifier) (d c : Nat) : Except IdentifierError Bool := do
  checkIndex .digit d x.digits
  checkIndex .coordinate c x.dimensions
  return x.bit d c

/-- The identifier with the given digits, digit 0 first. -/
def ofDigits (s : Shape) (values : List UInt64) : Except IdentifierError Identifier := do
  if values.length ≠ s.digits then
    throw (.indexOutOfRange .digit values.length s.digits)
  values.zipIdx.foldlM (fun x (value, d) => x.setDigit d value) (zero s)

/-! ## Coordinates -/

/-- Coordinate `c` in the arithmetic of `R`. -/
@[specialize] def coordinate {R : Type} [Scalar R] (x : Identifier) (c : Nat) :
    Except IdentifierError R := do
  checkIndex .coordinate c x.dimensions
  return BitString.toScalar (x.coordinateBits c)

/-- The identifier with coordinate `c` replaced. -/
def setCoordinate (x : Identifier) (c : Nat) (value : UInt64) :
    Except IdentifierError Identifier := do
  checkIndex .coordinate c x.dimensions
  checkFits value x.digits
  return x.overwrite ((List.range x.digits).map (·, c)) fun d _ =>
    wordBit value (x.digits - 1 - d)

/-! ## Truncation -/

/-- The first `k` digits. -/
def truncate (x : Identifier) (k : Nat) : Except IdentifierError Identifier := do
  let s ← Shape.ofExtents x.dimensions k
  if x.digits < k then throw (.shapeMismatch x.shape s)
  return ofFn s fun i => x.bits.getD i false

end Identifier

end CubeRouting
