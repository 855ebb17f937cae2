/-
  Metta.Machine.Word — 32-bit machine words as naturals.

  A word is a natural number below `2 ^ 32`; the operations reduce their
  result, so wrap-around is explicit in every definition that uses them.
  The lemmas give the value of an operation when nothing wraps, which is
  the form `omega` can work with.
-/
import Mathlib.Tactic

namespace Metta.Machine

/-! ## §1. Modular arithmetic on words. -/

/-- The number of 32-bit words. -/
abbrev wordSize : Nat := 2 ^ 32

/-- Unsigned 32-bit addition. -/
def add32 (a b : Nat) : Nat := (a + b) % wordSize

/-- Unsigned 32-bit subtraction (`a - b` modulo `2 ^ 32`). -/
def sub32 (a b : Nat) : Nat := (a + (wordSize - b % wordSize)) % wordSize

theorem add32_lt (a b : Nat) : add32 a b < wordSize := Nat.mod_lt _ (by decide)

theorem sub32_lt (a b : Nat) : sub32 a b < wordSize := Nat.mod_lt _ (by decide)

/-- An addition that does not wrap is exact. -/
theorem add32_eq {a b : Nat} (h : a + b < wordSize) : add32 a b = a + b :=
  Nat.mod_eq_of_lt h

/-- A subtraction of a smaller word is exact. -/
theorem sub32_eq {a b : Nat} (h : b ≤ a) (ha : a < wordSize) : sub32 a b = a - b := by
  unfold sub32
  rw [Nat.mod_eq_of_lt (lt_of_le_of_lt h ha)]
  simp only [wordSize] at *
  omega

theorem add32_sub32 {a b : Nat} (ha : a < wordSize) :
    add32 b (sub32 a b) = a := by
  simp only [add32, sub32, wordSize] at *
  omega

/-! ## §2. Clearing low bits. -/

/-- Masking with `~(2 ^ k - 1)` rounds a word down to a multiple of `2 ^ k`. -/
theorem and_highMask {y k : Nat} (hy : y < wordSize) (hk : k ≤ 32) :
    y &&& (wordSize - 2 ^ k) = y / 2 ^ k * 2 ^ k := by
  have hmask : wordSize - 2 ^ k = (2 ^ (32 - k) - 1) <<< k := by
    rw [Nat.shiftLeft_eq, Nat.sub_mul, ← pow_add, Nat.sub_add_cancel hk, one_mul]
  rw [hmask, ← Nat.shiftRight_eq_div_pow, ← Nat.shiftLeft_eq]
  apply Nat.eq_of_testBit_eq
  intro i
  simp only [Nat.testBit_and, Nat.testBit_shiftLeft, Nat.testBit_shiftRight,
    Nat.testBit_two_pow_sub_one]
  by_cases hik : k ≤ i
  · rw [show k + (i - k) = i by omega]
    by_cases hi : i < 32
    · simp [hik, show i - k < 32 - k by omega]
    · have hfalse : y.testBit i = false := by
        apply Nat.testBit_lt_two_pow
        exact lt_of_lt_of_le hy (Nat.pow_le_pow_right (by decide) (by omega))
      simp [hfalse]
  · simp [hik]

end Metta.Machine
