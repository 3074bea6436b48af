/-
  Identifiers: the points of the torus.

  An identifier is a grid of bits with one row per digit and one column per
  dimension; `x.bit d c` is the bit of digit `d` in dimension `c`.  Read by
  rows it is a sequence of digits, digit 0 the most significant, where
  dimension `c` is bit `c` of the digit.  Read by columns it is one coordinate
  per dimension, where digit 0 is the most significant bit.  The bits are
  stored row by row.
-/
import CubeRouting.BitString
import CubeRouting.Identifier.Error

namespace CubeRouting

/-- A point of the torus. -/
structure Identifier where
  shape : Shape
  /-- The bits, digit by digit. -/
  bits : Array Bool
  size_bits : bits.size = shape.bitCount
deriving DecidableEq

namespace Identifier

/-! ## Reading -/

/-- The number of dimensions. -/
abbrev dimensions (x : Identifier) : Nat := x.shape.dimensions

/-- The number of digits. -/
abbrev digits (x : Identifier) : Nat := x.shape.digits

/-- The number of bits. -/
abbrev bitCount (x : Identifier) : Nat := x.shape.bitCount

/-- The bit of digit `d` in dimension `c`. -/
def bit (x : Identifier) (d c : Nat) : Bool := x.bits.getD (d * x.dimensions + c) false

/-- The bits of digit `d`, dimension 0 first. -/
def digitBits (x : Identifier) (d : Nat) : List Bool :=
  (List.range x.dimensions).map (x.bit d)

@[simp] theorem length_digitBits (x : Identifier) (d : Nat) :
    (x.digitBits d).length = x.dimensions := by
  rw [digitBits, List.length_map, List.length_range]

/-- Coordinate `c`, digit 0 first. -/
def coordinateBits (x : Identifier) (c : Nat) : BitString :=
  (List.range x.digits).map (x.bit · c)

@[simp] theorem length_coordinateBits (x : Identifier) (c : Nat) :
    (x.coordinateBits c).length = x.digits := by
  rw [coordinateBits, List.length_map, List.length_range]

/-- The whole identifier as one number: its digits in order, each with the
    highest dimension first. -/
def ringBits (x : Identifier) : BitString :=
  (List.range x.digits).flatMap fun d => (x.digitBits d).reverse

/-! ## Building -/

/-- The identifier of a shape with the bits that `f` gives. -/
def ofFn (s : Shape) (f : Nat → Bool) : Identifier where
  shape := s
  bits := Array.ofFn fun i : Fin s.bitCount => f i
  size_bits := by simp

theorem bit_ofFn (s : Shape) (f : Nat → Bool) {d c : Nat} (hd : d < s.digits)
    (hc : c < s.dimensions) : (ofFn s f).bit d c = f (d * s.dimensions + c) := by
  have h : d * s.dimensions + c < s.bitCount := s.index_lt hd hc
  rw [bit, dimensions, ofFn, Array.getD_eq_getD_getElem?, Array.getElem?_ofFn,
    dif_pos h, Option.getD_some]

/-- The identifier without any bit set. -/
def zero (s : Shape) : Identifier where
  shape := s
  bits := Array.replicate s.bitCount false
  size_bits := by simp

/-- The identifier with the bit of each cell `(d, c)` of a list replaced by
    `value d c`. -/
def overwrite (x : Identifier) (cells : List (Nat × Nat)) (value : Nat → Nat → Bool) :
    Identifier where
  shape := x.shape
  bits := cells.foldl
    (fun bits (d, c) => bits.setIfInBounds (d * x.dimensions + c) (value d c)) x.bits
  size_bits := by
    rw [← x.size_bits]
    generalize x.bits = bits
    induction cells generalizing bits with
    | nil => rfl
    | cons cell _ ih => simp [List.foldl_cons, ih]

/-! ## Checks -/

/-- An index has to be below its limit. -/
def checkIndex (kind : IndexKind) (index limit : Nat) : Except IdentifierError Unit :=
  if index < limit then .ok () else .error (.indexOutOfRange kind index limit)

/-- Two identifiers have to be of one shape. -/
def checkShape (x y : Identifier) : Except IdentifierError Unit :=
  if x.shape = y.shape then .ok () else .error (.shapeMismatch x.shape y.shape)

/-! ## Single bits -/

/-- Bit `i` of the stored bits. -/
def get (x : Identifier) (i : Nat) : Except IdentifierError Bool := do
  checkIndex .bit i x.bitCount
  return x.bits.getD i false

/-- The identifier with bit `i` of the stored bits replaced. -/
def set (x : Identifier) (i : Nat) (value : Bool) : Except IdentifierError Identifier := do
  checkIndex .bit i x.bitCount
  return { x with
    bits := x.bits.setIfInBounds i value
    size_bits := by simpa using x.size_bits }

/-- The identifier of the same shape with all stored bits replaced. -/
def setAll (x : Identifier) (bits : Array Bool) : Except IdentifierError Identifier :=
  if h : bits.size = x.shape.bitCount then
    .ok { x with bits := bits, size_bits := h }
  else .error (.bitLength x.bitCount bits.size)

end Identifier

end CubeRouting
