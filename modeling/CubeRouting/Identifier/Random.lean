/-
  Random identifiers: bit `i` of the stored bits is bit `i % 64` of word
  `i / 64` drawn from a word stream.
-/
import CubeRouting.Identifier.Cells
import CubeRouting.Keyed.WordStream

namespace CubeRouting

/-- The number of words that a random identifier of this shape takes. -/
def Shape.wordCount (s : Shape) : Nat := (s.bitCount + wordBits - 1) / wordBits

/-- The identifier whose bits are those of the words, each from its least
    significant bit. -/
def Identifier.ofWords (s : Shape) (words : Array UInt64) : Identifier :=
  ofFn s fun i => (words.getD (i / wordBits) 0 >>> UInt64.ofNat (i % wordBits)) &&& 1 == 1

/-- A random identifier and the stream after it. -/
def Identifier.random (s : Shape) (stream : WordStream) : Identifier × WordStream :=
  let (words, rest) := stream.take s.wordCount
  (ofWords s words, rest)

end CubeRouting
