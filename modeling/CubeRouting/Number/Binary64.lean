/-
  Floating-point numbers of 64 bits.

  A `Binary64` is its bit pattern: sign, 11 exponent bits, 52 fraction bits.
  Arithmetic on numbers is the correctly rounded arithmetic of `Float`.  A
  pattern is kept where `Float` has a single not-a-number value: an operation
  on a NaN gives that NaN, made quiet, and an operation on numbers that has no
  value gives `Binary64.nan`, whose sign bit is set.

  * `lt` and `le` compare as numbers: NaN is comparable to nothing and the two
    zeros are equal;
  * `before` is the total order of all bit patterns, from the negative NaNs to
    the positive ones, read off `rank`.
-/
import CubeRouting.Number.Scalar

namespace CubeRouting

/-- A 64-bit floating-point number, as its bit pattern. -/
structure Binary64 where
  /-- The bit pattern. -/
  bits : UInt64
deriving DecidableEq, Inhabited

namespace Binary64

/-! ## Patterns -/

/-- The result of an operation on numbers that has no value. -/
def nan : Binary64 := ⟨0xfff8000000000000⟩

/-- Positive infinity. -/
def infinity : Binary64 := ⟨0x7ff0000000000000⟩

/-- The sign bit. -/
def isNegative (x : Binary64) : Bool := x.bits >>> 63 == 1

/-- The pattern without its sign bit. -/
def magnitude (x : Binary64) : UInt64 := x.bits &&& 0x7fffffffffffffff

def isNaN (x : Binary64) : Bool := infinity.bits < x.magnitude

def isFinite (x : Binary64) : Bool := x.magnitude < infinity.bits

def isZero (x : Binary64) : Bool := x.magnitude == 0

/-- The same NaN with its quiet bit set. -/
def quiet (x : Binary64) : Binary64 := ⟨x.bits ||| 0x0008000000000000⟩

/-- The number with the other sign. -/
def neg (x : Binary64) : Binary64 := ⟨x.bits ^^^ 0x8000000000000000⟩

instance : Neg Binary64 := ⟨neg⟩

/-! ## Comparison -/

/-- The position of a pattern in the total order, as an unsigned word. -/
def rank (x : Binary64) : UInt64 :=
  if x.isNegative then ~~~x.bits else x.bits ||| 0x8000000000000000

/-- `x` comes strictly before `y` in the total order of all patterns. -/
def before (x y : Binary64) : Bool := x.rank < y.rank

/-- `x < y` as numbers. -/
def lt (x y : Binary64) : Bool :=
  !x.isNaN && !y.isNaN && !(x.isZero && y.isZero) && x.before y

/-- `x = y` as numbers. -/
def numEq (x y : Binary64) : Bool :=
  !x.isNaN && (x == y || x.isZero && y.isZero)

/-- `x ≤ y` as numbers. -/
def le (x y : Binary64) : Bool := x.lt y || x.numEq y

/-- The larger of two numbers; a NaN gives way to a number. -/
def max (x y : Binary64) : Binary64 :=
  if x.isNaN then y else if y.isNaN then x else if x.lt y then y else x

/-- The smaller of two numbers; a NaN gives way to a number. -/
def min (x y : Binary64) : Binary64 :=
  if x.isNaN then y else if y.isNaN then x else if y.lt x then y else x

/-- `x` moved into the interval from `low` to `high`; a NaN stays. -/
def clamp (x low high : Binary64) : Binary64 :=
  if x.lt low then low else if high.lt x then high else x

/-! ## Arithmetic -/

def toFloat (x : Binary64) : Float := Float.ofBits x.bits

/-- The pattern of a result of `Float` arithmetic on numbers. -/
def ofFloat (x : Float) : Binary64 :=
  let r : Binary64 := ⟨x.toBits⟩
  if r.isNaN then nan else r

/-- A two-place operation: the first NaN among the operands, or the rounded
    result. -/
@[inline] def lift₂ (op : Float → Float → Float) (x y : Binary64) : Binary64 :=
  if x.isNaN then x.quiet else if y.isNaN then y.quiet else ofFloat (op x.toFloat y.toFloat)

def add : Binary64 → Binary64 → Binary64 := lift₂ (· + ·)

def sub : Binary64 → Binary64 → Binary64 := lift₂ (· - ·)

def mul : Binary64 → Binary64 → Binary64 := lift₂ (· * ·)

def div : Binary64 → Binary64 → Binary64 := lift₂ (· / ·)

instance : Add Binary64 := ⟨add⟩
instance : Sub Binary64 := ⟨sub⟩
instance : Mul Binary64 := ⟨mul⟩
instance : Div Binary64 := ⟨div⟩

def sqrt (x : Binary64) : Binary64 :=
  if x.isNaN then x.quiet else ofFloat x.toFloat.sqrt

def pow (x y : Binary64) : Binary64 := ofFloat (Float.pow x.toFloat y.toFloat)

/-- The inverse sine, in radians. -/
def asin (x : Binary64) : Binary64 := ofFloat x.toFloat.asin

/-- The closest number to a natural number. -/
def ofNat (n : Nat) : Binary64 := ofFloat (Float.ofNat n)

/-- The closest number to an integer. -/
def ofInt (i : Int) : Binary64 := ofFloat (Float.ofInt i)

/-- The closest number to `m * 10 ^ e` or `m / 10 ^ e`. -/
def ofScientific (m : Nat) (negativeExponent : Bool) (e : Nat) : Binary64 :=
  ofFloat (Float.ofScientific m negativeExponent e)

/-- Decimals of a larger order of magnitude overflow, and of a smaller one
    vanish. -/
def decimalRange : Int := 400

/-- The closest number to `m * 10 ^ e`, whatever the size of `e`. -/
def ofDecimal (m : Nat) (e : Int) : Binary64 :=
  let order : Int := (Nat.toDigits 10 m).length + e
  if m = 0 ∨ order < -decimalRange then ofNat 0
  else if decimalRange < order then infinity
  else ofScientific m (e < 0) e.natAbs

instance (n : Nat) : OfNat Binary64 n := ⟨ofNat n⟩
instance : OfScientific Binary64 := ⟨ofScientific⟩

instance : Scalar Binary64 where
  ofNat := ofNat
  sqrt := sqrt
  pow := pow
  max := max
  lt := lt
  before := before

end Binary64

end CubeRouting
