/-
  Hexadecimal text.
-/

namespace CubeRouting

/-- The hexadecimal digit of a number below sixteen. -/
def hexDigit (n : Nat) : Char := "0123456789abcdef".toList.getD n '0'

/-- A byte as two digits. -/
def hexByte (b : UInt8) : List Char := [hexDigit (b.toNat / 16), hexDigit (b.toNat % 16)]

/-- Bytes as text, two digits each. -/
def hexText (bytes : List UInt8) : String := String.ofList (bytes.flatMap hexByte)

/-- A word as sixteen digits. -/
def hexWord (w : UInt64) : String :=
  hexText (([56, 48, 40, 32, 24, 16, 8, 0] : List UInt64).map fun k => (w >>> k).toUInt8)

end CubeRouting
