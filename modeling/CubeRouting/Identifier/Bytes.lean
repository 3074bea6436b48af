/-
  The byte encoding of identifiers.

  Every bit of an identifier has one place in the encoding, a byte and a bit
  of that byte (`place`), and every bit of the encoding holds at most one bit
  of the identifier (`cellAt?`).  With at most four dimensions a byte holds as
  many whole digits as fit, the first in its high bits; otherwise each digit
  has bytes of its own, the most significant first.  Digit 0 comes first in
  big-endian order; little-endian order is the reverse, byte by byte.  Bits
  that hold nothing are zero, and decoding insists on it.
-/
import CubeRouting.Identifier.Basic
import CubeRouting.Text.Hex

namespace CubeRouting

/-- The order of the bytes of an encoding. -/
inductive ByteOrder where
  /-- Digit 0 in the first byte. -/
  | bigEndian
  /-- Digit 0 in the last byte. -/
  | littleEndian
deriving DecidableEq

/-- Digits of at most this many bits share bytes. -/
def packedDimensions : Nat := 4

/-- The number of bytes of an encoded identifier, `0` if an extent is `0`. -/
def byteLength (dimensions digits : Nat) : Nat :=
  if dimensions = 0 ∨ digits = 0 then 0
  else if dimensions ≤ packedDimensions then
    let perByte := 8 / dimensions
    (digits + perByte - 1) / perByte
  else digits * ((dimensions + 7) / 8)

namespace Shape

/-- The number of bytes of an encoded identifier of this shape. -/
def byteLength (s : Shape) : Nat := CubeRouting.byteLength s.dimensions s.digits

/-- Digits that share one byte. -/
def digitsPerByte (s : Shape) : Nat := 8 / s.dimensions

/-- Bytes of one digit, where digits do not share bytes. -/
def bytesPerDigit (s : Shape) : Nat := (s.dimensions + 7) / 8

/-- The byte, and the bit of that byte counted from the least significant,
    that hold the bit of digit `d` in dimension `c`. -/
def place (s : Shape) (d c : Nat) : Nat × Nat :=
  if s.dimensions ≤ packedDimensions then
    (d / s.digitsPerByte, 8 - s.dimensions * (d % s.digitsPerByte + 1) + c)
  else (d * s.bytesPerDigit + (s.bytesPerDigit - 1 - c / 8), c % 8)

/-- The digit and the dimension held by bit `b` of byte `i`. -/
def cellAt? (s : Shape) (i b : Nat) : Option (Nat × Nat) :=
  if s.dimensions ≤ packedDimensions then
    let j := (7 - b) / s.dimensions
    let d := i * s.digitsPerByte + j
    if j < s.digitsPerByte ∧ d < s.digits then
      some (d, b - (8 - s.dimensions * (j + 1)))
    else none
  else
    let c := 8 * (s.bytesPerDigit - 1 - i % s.bytesPerDigit) + b
    if c < s.dimensions then some (i / s.bytesPerDigit, c) else none

end Shape

/-- The places of the bits of a byte, the most significant first. -/
def bitPlaces : List Nat := [7, 6, 5, 4, 3, 2, 1, 0]

/-- The bytes in the other order if the order is little-endian. -/
def ByteOrder.arrange (order : ByteOrder) (bytes : List UInt8) : List UInt8 :=
  match order with
  | bigEndian => bytes
  | littleEndian => bytes.reverse

namespace Identifier

/-- Byte `i` of the big-endian encoding. -/
def encodedByte (x : Identifier) (i : Nat) : UInt8 :=
  UInt8.ofNat (BitString.toNat (bitPlaces.map fun b =>
    match x.shape.cellAt? i b with
    | some (d, c) => x.bit d c
    | none => false))

/-- The encoding of an identifier. -/
def toBytes (x : Identifier) (order : ByteOrder) : List UInt8 :=
  order.arrange ((List.range x.shape.byteLength).map x.encodedByte)

/-- Every bit of a big-endian encoding that holds nothing is zero. -/
def isCanonical (s : Shape) (bytes : List UInt8) : Bool :=
  bytes.zipIdx.all fun (byte, i) =>
    bitPlaces.all fun b => (s.cellAt? i b).isSome || !byte.toNat.testBit b

/-- The identifier of an encoding. -/
def ofBytes (s : Shape) (order : ByteOrder) (bytes : List UInt8) :
    Except IdentifierError Identifier := do
  if bytes.length ≠ s.byteLength then throw (.byteLength s.byteLength bytes.length)
  let big := order.arrange bytes
  if !isCanonical s big then throw .nonCanonicalPadding
  let cells := big.toArray
  return ofFn s fun k =>
    let (i, b) := s.place (k / s.dimensions) (k % s.dimensions)
    (cells.getD i 0).toNat.testBit b

/-- The identifier of an encoding, with the extents of its shape. -/
def decode (dimensions digits : Nat) (order : ByteOrder) (bytes : List UInt8) :
    Except IdentifierError Identifier := do
  ofBytes (← Shape.ofExtents dimensions digits) order bytes

/-! ## Text -/

/-- An identifier is written as its big-endian encoding in hexadecimal. -/
def text (x : Identifier) : String := hexText (x.toBytes .bigEndian)

/-- The text of an identifier together with its shape. -/
def debugText (x : Identifier) : String := "Identifier(" ++ x.shape.text ++ ":" ++ x.text ++ ")"

end Identifier

end CubeRouting
