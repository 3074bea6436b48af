/-
  Bit strings as numbers: a string of `n` digits denotes a number below `2 ^ n`,
  and different strings of one length denote different numbers.
-/
import CubeRouting.BitString
import Mathlib.Algebra.Group.Nat.Defs
import Mathlib.Data.List.Induction
import Mathlib.Tactic.Common

namespace CubeRouting

namespace BitString

variable {x y : BitString}

theorem toNat_concat (x : BitString) (b : Bool) : toNat (x ++ [b]) = 2 * toNat x + b.toNat := by
  rw [toNat, List.foldl_append]
  rfl

theorem toNat_append (x y : BitString) : toNat (x ++ y) = toNat x * 2 ^ y.length + toNat y := by
  induction y using List.reverseRecOn with
  | nil => simp [toNat]
  | append_singleton y b ih =>
    rw [← List.append_assoc, toNat_concat, toNat_concat, ih, List.length_append,
      List.length_singleton, Nat.pow_succ, Nat.mul_add, Nat.mul_comm (2 ^ _) 2,
      Nat.mul_left_comm, Nat.add_assoc]

theorem toNat_cons (b : Bool) (x : BitString) :
    toNat (b :: x) = b.toNat * 2 ^ x.length + toNat x := by
  rw [← List.singleton_append, toNat_append]
  congr 2
  exact Nat.zero_add _

theorem toNat_lt (x : BitString) : toNat x < 2 ^ x.length := by
  induction x using List.reverseRecOn with
  | nil => exact Nat.one_pos
  | append_singleton x b ih =>
    have hb : b.toNat ≤ 1 := Bool.toNat_le b
    rw [toNat_concat, List.length_append, List.length_singleton, Nat.pow_succ]
    omega

/-- The digits of the number that a bit string denotes. -/
theorem testBit_toNat (x : BitString) {i : Nat} (hi : i < x.length) :
    (toNat x).testBit i = x[x.length - 1 - i] := by
  induction x using List.reverseRecOn generalizing i with
  | nil => cases hi
  | append_singleton x b ih =>
    rw [toNat_concat]
    cases i with
    | zero => cases b <;> simp [Nat.testBit_zero]
    | succ i =>
      have hlen : i < x.length := by simpa using hi
      have hhalf : (2 * toNat x + b.toNat) / 2 = toNat x := by
        have := Bool.toNat_le b
        omega
      rw [Nat.testBit_succ, hhalf, ih hlen]
      rw [List.getElem_append_left (by simp; omega)]
      congr 1
      simp
      omega

/-- Read in reverse, the digits are those of the string, and zeros after them. -/
theorem testBit_toNat_reverse (x : BitString) (i : Nat) :
    (toNat x.reverse).testBit i = x.getD i false := by
  rcases Nat.lt_or_ge i x.length with hi | hi
  · rw [testBit_toNat _ (by rwa [List.length_reverse])]
    simp only [List.getElem_reverse, List.length_reverse, List.getD_eq_getElem?_getD,
      List.getElem?_eq_getElem hi, Option.getD_some]
    congr 1
    omega
  · have hlt := toNat_lt x.reverse
    rw [List.length_reverse] at hlt
    rw [Nat.testBit_lt_two_pow (Nat.lt_of_lt_of_le hlt (Nat.pow_le_pow_right Nat.two_pos hi)),
      List.getD_eq_getElem?_getD, List.getElem?_eq_none hi, Option.getD_none]

theorem testBit_append (x y : BitString) (i : Nat) : (toNat (x ++ y)).testBit i =
    if i < y.length then (toNat y).testBit i else (toNat x).testBit (i - y.length) := by
  rw [toNat_append, Nat.mul_comm, Nat.testBit_two_pow_mul_add _ (toNat_lt y)]

theorem toNat_inj (hlen : x.length = y.length) (h : toNat x = toNat y) : x = y := by
  induction x using List.reverseRecOn generalizing y with
  | nil => exact (List.length_eq_zero_iff.1 hlen.symm).symm
  | append_singleton x b ih =>
    rcases List.eq_nil_or_concat y with rfl | ⟨y, b', rfl⟩
    · simp at hlen
    · rw [List.concat_eq_append] at hlen h ⊢
      rw [toNat_concat, toNat_concat] at h
      have hb : b.toNat ≤ 1 := Bool.toNat_le b
      have hb' : b'.toNat ≤ 1 := Bool.toNat_le b'
      have hxy : x = y := ih (by simpa using hlen) (by omega)
      have hbits : b.toNat = b'.toNat := by omega
      rw [hxy]
      cases b <;> cases b' <;> simp at hbits ⊢

end BitString

end CubeRouting
