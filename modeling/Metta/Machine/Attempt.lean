/-
  Metta.Machine.Attempt — computations on a state that may fail.

  A computation that fails still leaves a state: what it has used up is gone,
  and whoever goes on after the failure goes on from there.

    • `Attempt` — such a computation; `fail`, `modify`, `attempt`,
    • `bind_eq_some`, `bind_eq_none` — how a sequence has ended,
    • `Reporting` — a measure of the state never gets smaller, and gets larger
      with every failure,
    • `Consumes` — a measure of the state never gets larger, failure or not,
    • `Ensures` — what is true of every state that a success leaves.
-/
import Mathlib.Tactic

namespace Metta.Machine

/-- A computation on states in `σ` that fails or has a result in `α`. -/
def Attempt (σ α : Type) : Type := σ → Option α × σ

namespace Attempt

variable {σ α β : Type}

instance : Monad (Attempt σ) where
  pure a := fun s => (some a, s)
  bind p f := fun s =>
    match p s with
    | (none, s') => (none, s')
    | (some a, s') => f a s'

/-- Fails. -/
def fail : Attempt σ α := fun s => (none, s)

/-- What there is to read in the state. -/
def read (f : σ → α) : Attempt σ α := fun s => (some (f s), s)

/-- Changes the state. -/
def modify (f : σ → σ) : Attempt σ Unit := fun s => (some (), f s)

/-- Goes on after a failure. -/
def attempt (p : Attempt σ α) : Attempt σ (Option α) := fun s => (some (p s).1, (p s).2)

/-! ## §1. How a sequence has ended. -/

variable {p : Attempt σ α} {f : α → Attempt σ β} {s s' : σ}

theorem pure_apply (a : α) (s : σ) : (pure a : Attempt σ α) s = (some a, s) := rfl

theorem bind_apply (p : Attempt σ α) (f : α → Attempt σ β) (s : σ) :
    (p >>= f) s = match p s with
      | (none, s') => (none, s')
      | (some a, s') => f a s' := rfl

theorem bind_of_some {a : α} (h : p s = (some a, s')) : (p >>= f) s = f a s' := by
  rw [bind_apply, h]

theorem bind_eq_some {b : β} :
    (p >>= f) s = (some b, s') ↔ ∃ a s₁, p s = (some a, s₁) ∧ f a s₁ = (some b, s') := by
  rw [bind_apply]
  rcases p s with ⟨_ | a, s₁⟩
  · simp
  · simp

theorem bind_eq_none :
    (p >>= f) s = (none, s') ↔
      p s = (none, s') ∨ ∃ a s₁, p s = (some a, s₁) ∧ f a s₁ = (none, s') := by
  rw [bind_apply]
  rcases p s with ⟨_ | a, s₁⟩
  · simp
  · simp

theorem read_bind (g : σ → α) (f : α → Attempt σ β) (s : σ) : (read g >>= f) s = f (g s) s := rfl

theorem modify_bind (g : σ → σ) (f : Unit → Attempt σ β) (s : σ) :
    (modify g >>= f) s = f () (g s) := rfl

theorem attempt_bind (p : Attempt σ α) (f : Option α → Attempt σ β) (s : σ) :
    (attempt p >>= f) s = f (p s).1 (p s).2 := rfl

/-! ## §2. Failures that are reported. -/

section Reports

variable (I : σ → Prop) (μ : σ → Nat)

/-- A computation that succeeds keeps `I` and does not make the measure smaller. -/
def Grows (p : Attempt σ α) : Prop :=
  ∀ s a s', I s → p s = (some a, s') → I s' ∧ μ s ≤ μ s'

/-- A computation that fails keeps `I`, too, and makes the measure larger. -/
def Reports (p : Attempt σ α) : Prop := ∀ s s', I s → p s = (none, s') → I s' ∧ μ s < μ s'

/-- Both. -/
def Reporting (p : Attempt σ α) : Prop := Grows I μ p ∧ Reports I μ p

end Reports

variable {I : σ → Prop} {μ : σ → Nat}

theorem Grows.bind (hp : Grows I μ p) (hf : ∀ a, Grows I μ (f a)) : Grows I μ (p >>= f) := by
  intro s b s' hI h
  obtain ⟨a, s₁, h₁, h₂⟩ := bind_eq_some.mp h
  obtain ⟨hI₁, hle₁⟩ := hp s a s₁ hI h₁
  obtain ⟨hI₂, hle₂⟩ := hf a s₁ b s' hI₁ h₂
  exact ⟨hI₂, le_trans hle₁ hle₂⟩

theorem Grows.ite {c : Prop} [Decidable c] {p q : Attempt σ α} (hp : Grows I μ p)
    (hq : Grows I μ q) : Grows I μ (if c then p else q) := by
  split
  · exact hp
  · exact hq

theorem grows_fail : Grows I μ (fail : Attempt σ α) := fun _ _ _ _ h => nomatch h

theorem Reporting.bind (hp : Reporting I μ p) (hf : ∀ a, Reporting I μ (f a)) :
    Reporting I μ (p >>= f) := by
  refine ⟨hp.1.bind fun a => (hf a).1, fun s s' hI h => ?_⟩
  rcases bind_eq_none.mp h with h | ⟨a, s₁, h₁, h₂⟩
  · exact hp.2 s s' hI h
  · obtain ⟨hI₁, hle₁⟩ := hp.1 s a s₁ hI h₁
    obtain ⟨hI₂, hlt⟩ := (hf a).2 s₁ s' hI₁ h₂
    exact ⟨hI₂, lt_of_le_of_lt hle₁ hlt⟩

/-- Going on after a failure that was reported. -/
theorem Reporting.attempt (hp : Reporting I μ p) : Grows I μ (attempt p) := by
  intro s a s' hI h
  cases h
  rcases hps : p s with ⟨_ | a, s'⟩
  · obtain ⟨hI', hlt⟩ := hp.2 s s' hI hps
    exact ⟨hI', hlt.le⟩
  · exact hp.1 s a s' hI hps

/-- A computation that does not fail and keeps the measure. -/
theorem reporting_of_ok (h : ∀ s, I s → ∃ a s', p s = (some a, s') ∧ I s' ∧ μ s' = μ s) :
    Reporting I μ p := by
  constructor
  · intro s a s' hI hp
    obtain ⟨a', s'', hp', hI', hμ⟩ := h s hI
    cases hp'.symm.trans hp
    exact ⟨hI', hμ.ge⟩
  · intro s s' hI hp
    obtain ⟨a', s'', hp', -⟩ := h s hI
    cases hp'.symm.trans hp

theorem reporting_pure (a : α) : Reporting I μ (pure a : Attempt σ α) :=
  reporting_of_ok fun s hI => ⟨a, s, rfl, hI, rfl⟩

theorem reporting_read (g : σ → α) : Reporting I μ (read g) :=
  reporting_of_ok fun s hI => ⟨g s, s, rfl, hI, rfl⟩

theorem Reporting.ite {c : Prop} [Decidable c] {p q : Attempt σ α} (hp : Reporting I μ p)
    (hq : Reporting I μ q) : Reporting I μ (if c then p else q) := by
  split
  · exact hp
  · exact hq

/-! ## §3. What is used up. -/

/-- A computation that does not make the measure larger, whether it fails or not. -/
def Consumes (μ : σ → Nat) (p : Attempt σ α) : Prop := ∀ s, μ (p s).2 ≤ μ s

namespace Consumes

theorem bind (hp : Consumes μ p) (hf : ∀ a, Consumes μ (f a)) : Consumes μ (p >>= f) := by
  intro s
  have hle := hp s
  rw [bind_apply]
  rcases h : p s with ⟨_ | a, s'⟩
  · rw [h] at hle
    exact hle
  · rw [h] at hle
    exact le_trans (hf a s') hle

theorem of_eq (h : ∀ s, μ (p s).2 = μ s) : Consumes μ p := fun s => (h s).le

theorem pure (a : α) : Consumes μ (Pure.pure a : Attempt σ α) := of_eq fun _ => rfl

theorem fail : Consumes μ (Attempt.fail : Attempt σ α) := of_eq fun _ => rfl

theorem read (g : σ → α) : Consumes μ (Attempt.read g) := of_eq fun _ => rfl

theorem modify {g : σ → σ} (h : ∀ s, μ (g s) ≤ μ s) : Consumes μ (Attempt.modify g) := h

theorem attempt (hp : Consumes μ p) : Consumes μ p.attempt := hp

theorem ite {c : Prop} [Decidable c] {q : Attempt σ α} (hp : Consumes μ p) (hq : Consumes μ q) :
    Consumes μ (if c then p else q) := by
  split
  · exact hp
  · exact hq

end Consumes

/-! ## §4. What a success leaves. -/

/-- Every state that a success leaves has the property. -/
def Ensures (post : σ → Prop) (p : Attempt σ α) : Prop := ∀ s a s', p s = (some a, s') → post s'

namespace Ensures

variable {post : σ → Prop}

/-- What comes last decides. -/
theorem bind (hf : ∀ a, Ensures post (f a)) : Ensures post (p >>= f) := by
  intro s b s' h
  obtain ⟨a, s₁, -, h⟩ := bind_eq_some.mp h
  exact hf a s₁ b s' h

theorem fail : Ensures post (Attempt.fail : Attempt σ α) := fun _ _ _ h => nomatch h

theorem ite {c : Prop} [Decidable c] {q : Attempt σ α} (hp : Ensures post p)
    (hq : Ensures post q) : Ensures post (if c then p else q) := by
  split
  · exact hp
  · exact hq

end Ensures

end Attempt

end Metta.Machine
