/-
  Metta.Machine.RunLength — arrays of run-length counters.

  An array of `n` slots keeps, for each slot, the number of consecutive free
  slots that start there.  `FreeRun` is what one counter means and `Counts`
  that all of them are right; both are stated against a predicate `busy`, so
  they say nothing about how the counters are kept up to date.

    • `FreeRun.unique`      — the counters are determined by `busy`,
    • `Counts.reaches`      — the counters along a run count down by one,
    • `Counts.take`         — what taking slots from a run must do to them.
-/
import Mathlib.Tactic

namespace Metta.Machine

/-! ## §1. Runs. -/

/-- `len` is the length of the longest run of free slots from `i` on. -/
structure FreeRun (busy : Nat → Prop) (n i len : Nat) : Prop where
  bound : i + len ≤ n
  free : ∀ {j}, i ≤ j → j < i + len → ¬ busy j
  stop : i + len < n → busy (i + len)

/-- Every slot below `n` has the right counter. -/
def Counts (busy : Nat → Prop) (n : Nat) (f : Nat → Nat) : Prop :=
  ∀ i, i < n → FreeRun busy n i (f i)

variable {busy : Nat → Prop} {n : Nat} {f : Nat → Nat}

/-- A slot has one longest run only. -/
theorem FreeRun.unique {i len len' : Nat} (h : FreeRun busy n i len)
    (h' : FreeRun busy n i len') : len = len' := by
  rcases lt_trichotomy len len' with hlt | heq | hlt
  · have hb := h'.bound
    exact absurd (h.stop (by omega)) (h'.free (by omega) (by omega))
  · exact heq
  · have hb := h.bound
    exact absurd (h'.stop (by omega)) (h.free (by omega) (by omega))

/-- A counter is zero exactly at the busy slots. -/
theorem Counts.eq_zero_iff (h : Counts busy n f) {i : Nat} (hi : i < n) :
    f i = 0 ↔ busy i := by
  have hrun := h i hi
  constructor
  · intro hz
    have := hrun.stop (by omega)
    rwa [hz] at this
  · intro hb
    by_contra hne
    exact hrun.free (le_refl i) (by omega) hb

/-- Two runs with a common slot end together. -/
theorem Counts.reaches (h : Counts busy n f) {i j : Nat} (hi : i < n) (hij : i ≤ j)
    (hj : j < i + f i) : j + f j = i + f i := by
  have hri := h i hi
  have hbound := hri.bound
  have hrun : FreeRun busy n j (i + f i - j) := by
    refine ⟨by omega, ?_, ?_⟩
    · intro k hk hk'
      exact hri.free (by omega) (by omega)
    · intro hlt
      rw [show j + (i + f i - j) = i + f i by omega] at hlt ⊢
      exact hri.stop hlt
  have := (h j (by omega)).unique hrun
  omega

/-! ## §2. Taking slots. -/

/-- **Taking `m` slots from a run**: they get the counter zero, and the
counters of the slots whose run went through them stop short of them. -/
theorem Counts.take (h : Counts busy n f) {first m : Nat} {f' : Nat → Nat}
    (hfirst : first < n) (hm0 : m = 0 → f first = 0)
    (htaken : ∀ i, first ≤ i → i < first + m → f' i = 0)
    (hbefore : ∀ i, i < first → first < i + f i → f' i = first - i)
    (hrest : ∀ i, i < n → ¬ (first ≤ i ∧ i < first + m) → ¬ (i < first ∧ first < i + f i) →
      f' i = f i) :
    Counts (fun i => busy i ∨ (first ≤ i ∧ i < first + m)) n f' := by
  intro i hi
  by_cases hin : first ≤ i ∧ i < first + m
  · -- a slot that has just been taken
    rw [htaken i hin.1 hin.2]
    exact ⟨by omega, fun hj hj' => by omega, fun _ => .inr hin⟩
  · by_cases hthrough : i < first ∧ first < i + f i
    · -- a run that went through the first slot taken
      have hm1 : m ≠ 0 := by
        intro h0
        have := h.reaches hi hthrough.1.le hthrough.2
        have := hm0 h0
        omega
      rw [hbefore i hthrough.1 hthrough.2]
      refine ⟨by omega, ?_, ?_⟩
      · rintro j hj hj' (hbusy | htk)
        · exact (h i hi).free hj (by omega) hbusy
        · omega
      · intro _
        exact .inr ⟨by omega, by omega⟩
    · rw [hrest i hi hin hthrough]
      refine ⟨(h i hi).bound, ?_, fun hlt => .inl ((h i hi).stop hlt)⟩
      rintro j hj hj' (hbusy | htk)
      · exact (h i hi).free hj hj' hbusy
      · -- the run would have gone through `first`
        have hlt : first ≤ i := by
          by_contra hlt
          exact hthrough ⟨by omega, by omega⟩
        omega

/-- Counters that start right for no busy slot at all. -/
theorem counts_all_free (n : Nat) : Counts (fun _ => False) n fun i => n - i := by
  intro i hi
  have hsum : i + (n - i) = n := by omega
  exact ⟨hsum.le, fun _ _ h => h, fun hlt => absurd hlt (by simp only [hsum, lt_irrefl, not_false_eq_true])⟩

theorem Counts.congr {busy' : Nat → Prop} (h : Counts busy n f)
    (hb : ∀ i, busy' i ↔ busy i) : Counts busy' n f := by
  rwa [show busy' = busy from funext fun i => propext (hb i)]

end Metta.Machine
