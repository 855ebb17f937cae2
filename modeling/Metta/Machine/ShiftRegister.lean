/-
  Metta.Machine.ShiftRegister — sequences in which every element comes from the
  one `n` places before it, its successor, and one `n - m` places before it.

    • `Recurs` — such sequences, and `extend`, the one that begins in a given way,
    • `Recurs.agree` — two that agree for `n` places agree for ever,
    • `Refilled` — an array with the next `n` elements up to a place and the last
      `n` from there on; one turn of a loop writes the next one over the oldest.
-/
import Mathlib.Tactic

namespace Metta.Machine

variable {W : Type} {n m : Nat} {step : W → W → W → W}

/-- Every element comes from three that are before it. -/
def Recurs (n m : Nat) (step : W → W → W → W) (x : Nat → W) : Prop :=
  ∀ k, x (k + n) = step (x (k + m)) (x k) (x (k + 1))

/-- **Two sequences that agree for `n` places** agree from there on. -/
theorem Recurs.agree {x y : Nat → W} (hx : Recurs n m step x) (hy : Recurs n m step y)
    (hm : m < n) (hn : 1 < n) {a b : Nat} (h : ∀ i < n, x (a + i) = y (b + i)) :
    ∀ i, x (a + i) = y (b + i) := by
  intro i
  induction i using Nat.strong_induction_on with
  | _ i ih =>
    by_cases hi : i < n
    · exact h i hi
    · obtain ⟨k, rfl⟩ := Nat.exists_eq_add_of_le' (Nat.le_of_not_lt hi)
      rw [← Nat.add_assoc, ← Nat.add_assoc, hx, hy, Nat.add_assoc, Nat.add_assoc, Nat.add_assoc,
        Nat.add_assoc, ih (k + m) (by omega), ih k (by omega), ih (k + 1) (by omega)]

/-- The sequence that begins as an array does. -/
def extend (n m : Nat) (step : W → W → W → W) (hm : m < n) (hn : 1 < n) (s : Nat → W) (k : Nat) :
    W :=
  if h : k < n then s k
  else step (extend n m step hm hn s (k - n + m)) (extend n m step hm hn s (k - n))
    (extend n m step hm hn s (k - n + 1))
termination_by k

theorem extend_of_lt {hm : m < n} {hn : 1 < n} {s : Nat → W} {k : Nat} (h : k < n) :
    extend n m step hm hn s k = s k := by
  rw [extend, dif_pos h]

theorem extend_recurs (hm : m < n) (hn : 1 < n) (s : Nat → W) :
    Recurs n m step (extend n m step hm hn s) := by
  intro k
  rw [extend, dif_neg (by omega), Nat.add_sub_cancel]

/-- The array has the elements from `b + n` on in its first `p` places, and in the other places
the ones from `b` on that are there still. -/
def Refilled (n : Nat) (x : Nat → W) (b p : Nat) (s : Nat → W) : Prop :=
  ∀ i < n, s i = x (if i < p then b + n + i else b + i)

/-- **One turn**: the next element is written over the oldest. -/
theorem Refilled.write {x : Nat → W} (hx : Recurs n m step x) {b p i j : Nat} {s : Nat → W}
    (hs : Refilled n x b p s) (hp : p < n) (hm : m < n) (hn : 1 < n)
    (hi : i = if p + m < n then p + m else p + m - n)
    (hj : j = if p + 1 < n then p + 1 else 0) :
    Refilled n x b (p + 1) (Function.update s p (step (s i) (s p) (s j))) := by
  have hsp : s p = x (b + p) := by
    rw [hs p hp, if_neg (Nat.lt_irrefl p)]
  have hsi : s i = x (b + p + m) := by
    by_cases hlt : p + m < n
    · rw [hi, if_pos hlt, hs _ hlt]
      split
      · exact congrArg x (by omega)
      · exact congrArg x (by omega)
    · rw [hi, if_neg hlt, hs _ (by omega), if_pos (by omega)]
      exact congrArg x (by omega)
  have hsj : s j = x (b + p + 1) := by
    by_cases hlt : p + 1 < n
    · rw [hj, if_pos hlt, hs _ hlt, if_neg (by omega)]
      exact congrArg x (by omega)
    · rw [hj, if_neg hlt, hs 0 (by omega), if_pos (by omega)]
      exact congrArg x (by omega)
  intro l hl
  by_cases hlp : l = p
  · rw [hlp, Function.update_self, if_pos (Nat.lt_succ_self p), hsi, hsp, hsj, ← hx]
    exact congrArg x (by omega)
  · rw [Function.update_of_ne hlp, hs l hl]
    by_cases hlt : l < p
    · rw [if_pos hlt, if_pos (by omega)]
    · rw [if_neg hlt, if_neg (by omega)]

/-- A whole round. -/
theorem Refilled.next {x : Nat → W} {b : Nat} {s : Nat → W} (hs : Refilled n x b n s) :
    Refilled n x (b + n) 0 s := by
  intro i hi
  rw [hs i hi, if_pos hi, if_neg (Nat.not_lt_zero i)]

end Metta.Machine
