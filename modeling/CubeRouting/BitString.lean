/-
  Bit strings: natural numbers written with a fixed number of binary digits,
  the most significant digit first.

  `toNat` reads a bit string.  Subtraction runs a borrow from the last digit
  to the first and drops it at the end, so it is subtraction modulo the number
  of strings of that length; comparison looks at the first digit that differs.
  On the circle of all strings of one length, `gap` is the shorter of the two
  ways round.
-/
import CubeRouting.Number.Scalar

namespace CubeRouting

/-- A number in binary digits, the most significant first. -/
abbrev BitString := List Bool

namespace BitString

/-- The number that a bit string denotes. -/
def toNat (x : BitString) : Nat := x.foldl (fun acc b => 2 * acc + b.toNat) 0

/-- The number that a bit string denotes, accumulated digit by digit in the
    arithmetic of `R`. -/
@[specialize] def toScalar {R : Type} [Scalar R] (x : BitString) : R :=
  let two : R := Scalar.ofNat 2
  let zero : R := Scalar.ofNat 0
  let one : R := Scalar.ofNat 1
  x.foldl (fun acc b => acc * two + (if b then one else zero)) zero

/-- The digits of `x - y` and the borrow out of the first one. -/
def subBorrow (x y : BitString) : BitString × Bool :=
  (x.zip y).foldr
    (fun (a, b) (digits, borrow) =>
      ((a ^^ b ^^ borrow) :: digits, (!a && b) || (!(a ^^ b) && borrow)))
    ([], false)

/-- `x - y` modulo the number of strings of their length. -/
def sub (x y : BitString) : BitString := (subBorrow x y).1

theorem length_subBorrow (x y : BitString) :
    (subBorrow x y).1.length = min x.length y.length := by
  induction x generalizing y with
  | nil => rfl
  | cons a x ih =>
    cases y with
    | nil => rfl
    | cons b y =>
      have := ih y
      simp only [subBorrow, List.zip_cons_cons, List.foldr_cons, List.length_cons] at this ⊢
      omega

@[simp] theorem length_sub (x y : BitString) : (sub x y).length = min x.length y.length :=
  length_subBorrow x y

/-- Comparison of two bit strings of one length: the first digit that differs
    decides. -/
def cmp (x y : BitString) : Ordering :=
  match (x.zip y).find? fun (a, b) => a != b with
  | none => .eq
  | some (true, _) => .gt
  | some (false, _) => .lt

/-- The way forward from `a` to `b` is longer than the way back. -/
def isBackward (a b : BitString) : Bool := (sub b a).cmp (sub a b) == .gt

/-- The way forward from `a` to `b` is shorter than the way back. -/
def isForward (a b : BitString) : Bool := (sub b a).cmp (sub a b) == .lt

/-- The length of the shorter way round from `a` to `b`. -/
def gap (a b : BitString) : BitString :=
  if isBackward a b then sub a b else sub b a

@[simp] theorem length_gap (a b : BitString) : (gap a b).length = min a.length b.length := by
  unfold gap
  split
  · exact length_sub a b
  · rw [length_sub, Nat.min_comm]

end BitString

end CubeRouting
