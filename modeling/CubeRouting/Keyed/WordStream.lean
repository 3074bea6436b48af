/-
  Reproducible random words.

  A `WordStream` is a position in the key stream of the ChaCha cipher with
  twelve rounds, a 64-bit block counter from zero and stream number zero.  A
  64-bit word of the stream is two consecutive 32-bit words of it, the low one
  first.  The key is expanded from a seed by a linear congruential generator
  with a permuted output.
-/

namespace CubeRouting

namespace ChaCha

/-- The state of the cipher. -/
abbrev State := Vector UInt32 16

/-- A word rotated to the left. -/
def rotate (x : UInt32) (k : UInt32) : UInt32 := (x <<< k) ||| (x >>> (32 - k))

/-- The quarter round on four words of the state. -/
def quarterRound (s : State) (a b c d : Fin 16) : State :=
  let s := s.set a (s[a] + s[b])
  let s := s.set d (rotate (s[d] ^^^ s[a]) 16)
  let s := s.set c (s[c] + s[d])
  let s := s.set b (rotate (s[b] ^^^ s[c]) 12)
  let s := s.set a (s[a] + s[b])
  let s := s.set d (rotate (s[d] ^^^ s[a]) 8)
  let s := s.set c (s[c] + s[d])
  s.set b (rotate (s[b] ^^^ s[c]) 7)

/-- A round on the columns and a round on the diagonals. -/
def doubleRound (s : State) : State :=
  let s := quarterRound s 0 4 8 12
  let s := quarterRound s 1 5 9 13
  let s := quarterRound s 2 6 10 14
  let s := quarterRound s 3 7 11 15
  let s := quarterRound s 0 5 10 15
  let s := quarterRound s 1 6 11 12
  let s := quarterRound s 2 7 8 13
  quarterRound s 3 4 9 14

/-- The state before block `n` of the key stream is mixed. -/
def start (key : Vector UInt32 8) (n : UInt64) : State :=
  #v[0x61707865, 0x3320646e, 0x79622d32, 0x6b206574,
    key[0], key[1], key[2], key[3], key[4], key[5], key[6], key[7],
    n.toUInt32, (n >>> 32).toUInt32, 0, 0]

/-- Six double rounds. -/
def mix (s : State) : State :=
  doubleRound (doubleRound (doubleRound (doubleRound (doubleRound (doubleRound s)))))

/-- Block `n` of the key stream. -/
def block (key : Vector UInt32 8) (n : UInt64) : State :=
  let s := start key n
  (mix s).zipWith (· + ·) s

end ChaCha

namespace SeedExpansion

/-- The next state of the generator. -/
def next (s : UInt64) : UInt64 := s * 6364136223846793005 + 11634580027462260723

/-- The output of a state: a word of its high bits, rotated to the right by
    its highest five. -/
def output (s : UInt64) : UInt32 :=
  let x := (((s >>> 18) ^^^ s) >>> 27).toUInt32
  let k := (s >>> 59).toUInt32
  (x >>> k) ||| (x <<< ((32 - k) % 32))

/-- The key of a seed: the outputs of the first eight states after it. -/
def key (seed : UInt64) : Vector UInt32 8 :=
  let states := (List.range 8).foldl (fun (s, out) _ => (next s, out.push (output (next s))))
    (seed, (#[] : Array UInt32))
  Vector.ofFn fun i => states.2.getD i 0

end SeedExpansion

/-- A position in a key stream. -/
structure WordStream where
  key : Vector UInt32 8
  /-- How many words were taken. -/
  position : Nat

namespace WordStream

/-- The start of the stream of a seed. -/
def ofSeed (seed : UInt64) : WordStream := ⟨SeedExpansion.key seed, 0⟩

/-- Word `i` of the stream, counted from its start. -/
def word (s : WordStream) (i : Nat) : UInt64 :=
  let block := ChaCha.block s.key (UInt64.ofNat (i / 8))
  let low := block.toArray.getD (2 * (i % 8)) 0
  let high := block.toArray.getD (2 * (i % 8) + 1) 0
  low.toUInt64 ||| (high.toUInt64 <<< 32)

/-- The next `k` words and the stream after them. -/
def take (s : WordStream) (k : Nat) : Array UInt64 × WordStream :=
  (Array.ofFn fun i : Fin k => s.word (s.position + i), { s with position := s.position + k })

end WordStream

end CubeRouting
