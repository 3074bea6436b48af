/-
  SipHash-1-3: a keyed 64-bit hash of a list of 64-bit words.

  Four words of state start from the two keys.  Each message word is mixed in
  by one round, the length of the message in bytes by one more, and three
  rounds end the hash.
-/

namespace CubeRouting.SipHash

/-- The four words of state. -/
structure State where
  v0 : UInt64
  v1 : UInt64
  v2 : UInt64
  v3 : UInt64

/-- A word rotated to the left. -/
def rotate (x : UInt64) (k : UInt64) : UInt64 := (x <<< k) ||| (x >>> (64 - k))

/-- The state for the keys `k0` and `k1`. -/
def start (k0 k1 : UInt64) : State where
  v0 := k0 ^^^ 0x736f6d6570736575
  v1 := k1 ^^^ 0x646f72616e646f6d
  v2 := k0 ^^^ 0x6c7967656e657261
  v3 := k1 ^^^ 0x7465646279746573

def round (s : State) : State :=
  let a0 := s.v0 + s.v1
  let a1 := rotate s.v1 13 ^^^ a0
  let a0 := rotate a0 32
  let a2 := s.v2 + s.v3
  let a3 := rotate s.v3 16 ^^^ a2
  let b0 := a0 + a3
  let b3 := rotate a3 21 ^^^ b0
  let b2 := a2 + a1
  let b1 := rotate a1 17 ^^^ b2
  { v0 := b0, v1 := b1, v2 := rotate b2 32, v3 := b3 }

/-- One word of the message mixed in. -/
def absorb (s : State) (word : UInt64) : State :=
  let t := round { s with v3 := s.v3 ^^^ word }
  { t with v0 := t.v0 ^^^ word }

/-- The hash of a message under the keys `k0` and `k1`. -/
def hash (k0 k1 : UInt64) (message : List UInt64) : UInt64 :=
  let length := UInt64.ofNat (8 * message.length % 256) <<< 56
  let s := absorb (message.foldl absorb (start k0 k1)) length
  let t := round (round (round { s with v2 := s.v2 ^^^ 0xff }))
  t.v0 ^^^ t.v1 ^^^ t.v2 ^^^ t.v3

end CubeRouting.SipHash
