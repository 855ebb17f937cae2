/-
  Metta.Machine.Stepper — runs of a deterministic machine.

  A machine is a partial step function; a state without a next one is final.

    • `runFor_add` — runs compose,
    • `Reaches.final_unique` — there is at most one final state,
    • `le_of_final` — no run is longer than one that ends.
-/
import Mathlib.Tactic

namespace Metta.Machine

universe u

variable {σ : Type u} {step : σ → Option σ}

/-- The state after `n` steps, if the machine gets that far. -/
def runFor (step : σ → Option σ) : Nat → σ → Option σ
  | 0, s => some s
  | n + 1, s => (step s).bind (runFor step n)

/-- `s'` comes up in the run from `s`. -/
def Reaches (step : σ → Option σ) (s s' : σ) : Prop := ∃ n, runFor step n s = some s'

theorem runFor_add (m n : Nat) (s : σ) :
    runFor step (m + n) s = (runFor step m s).bind (runFor step n) := by
  induction m generalizing s with
  | zero => rw [Nat.zero_add]; rfl
  | succ m ih =>
      rw [Nat.succ_add, runFor, runFor]
      cases step s with
      | none => rfl
      | some s' => exact ih s'

/-- A run may stop earlier. -/
theorem runFor_of_le {m n : Nat} (h : m ≤ n) {s : σ} (hn : (runFor step n s).isSome) :
    (runFor step m s).isSome := by
  obtain ⟨d, rfl⟩ := Nat.exists_eq_add_of_le h
  rw [runFor_add] at hn
  cases hm : runFor step m s with
  | none => rw [hm] at hn; cases hn
  | some s' => rfl

namespace Reaches

variable {s s' s'' : σ}

theorem refl (s : σ) : Reaches step s s := ⟨0, rfl⟩

theorem trans (h : Reaches step s s') (h' : Reaches step s' s'') : Reaches step s s'' := by
  obtain ⟨m, hm⟩ := h
  obtain ⟨n, hn⟩ := h'
  exact ⟨m + n, by rw [runFor_add, hm]; exact hn⟩

theorem head (h : step s = some s') (h' : Reaches step s' s'') : Reaches step s s'' := by
  obtain ⟨n, hn⟩ := h'
  exact ⟨n + 1, by rw [runFor, h]; exact hn⟩

theorem tail (h : Reaches step s s') (h' : step s' = some s'') : Reaches step s s'' :=
  h.trans (head h' (refl _))

/-- An invariant of the steps holds of what is reached. -/
theorem induction {P : σ → Prop} (hstep : ∀ s s', P s → step s = some s' → P s')
    (h : Reaches step s s') (hs : P s) : P s' := by
  obtain ⟨n, hn⟩ := h
  induction n generalizing s with
  | zero => cases hn; exact hs
  | succ n ih =>
      rw [runFor] at hn
      cases hs' : step s with
      | none => rw [hs'] at hn; cases hn
      | some t => rw [hs'] at hn; exact ih (hstep s t hs hs') hn

end Reaches

/-- No run is longer than one that ends. -/
theorem le_of_final {s h : σ} {m n : Nat} (hm : runFor step m s = some h) (hfinal : step h = none)
    (hn : (runFor step n s).isSome) : n ≤ m := by
  by_contra hlt
  have hle : m + 1 ≤ n := by omega
  have := runFor_of_le hle hn
  rw [runFor_add, hm, Option.bind_some, runFor, hfinal] at this
  cases this

/-- **There is at most one final state.** -/
theorem Reaches.final_unique {s h h' : σ} (hh : Reaches step s h) (hh' : Reaches step s h')
    (hf : step h = none) (hf' : step h' = none) : h = h' := by
  obtain ⟨m, hm⟩ := hh
  obtain ⟨n, hn⟩ := hh'
  have h1 := le_of_final hm hf (by rw [hn]; rfl)
  have h2 := le_of_final hn hf' (by rw [hm]; rfl)
  have hmn : m = n := by omega
  rw [hmn, hn, Option.some_inj] at hm
  exact hm.symm

end Metta.Machine
