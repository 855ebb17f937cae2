/-
  Metta.Machine.Interaction — programs that make calls of a device.

  A program is what it does next: a call, and for every result of it the rest of the program.
  It is run with a handler, which gives the result of a call and the next state of the device.
  The device may also move on its own between two calls.

    • `Interaction` — programs, a monad,
    • `exec` — the run with a handler, `exec_bind`,
    • `Runs` — the runs in which the device moves between the calls, `runs_bind`,
    • `Ensures` — pre- and postconditions of such runs, with a rule for each kind of program,
    • `exec_of_runs` — where the device does not move,
    • `runs_of_scheduled` — the run with moves at given calls.
-/
import Mathlib.Tactic
import Mathlib.Logic.Relation

namespace Metta.Machine

/-- A program that makes calls of `Op`.  It is `going` where a loop still goes on after the turns
that it was given. -/
inductive Interaction {Op : Type} (Res : Op → Type) (α : Type) where
  | done (a : α)
  | going
  | call (o : Op) (k : Res o → Interaction Res α)

namespace Interaction

variable {Op : Type} {Res : Op → Type} {α β σ : Type}

/-! ## §1. Programs. -/

protected def bind : Interaction Res α → (α → Interaction Res β) → Interaction Res β
  | done a, f => f a
  | going, _ => going
  | call o k, f => call o fun r => (k r).bind f

instance : Monad (Interaction Res) where
  pure := done
  bind := Interaction.bind

/-- One call. -/
def perform (o : Op) : Interaction Res (Res o) := call o done

/-! ## §2. The run with a handler. -/

section Exec

variable (handle : (o : Op) → σ → Res o × σ)

def exec : Interaction Res α → σ → Option (α × σ)
  | done a, s => some (a, s)
  | going, _ => none
  | call o k, s => exec (k (handle o s).1) (handle o s).2

theorem exec_bind (p : Interaction Res α) (f : α → Interaction Res β) (s : σ) :
    exec handle (p >>= f) s = (exec handle p s).bind fun x => exec handle (f x.1) x.2 := by
  induction p generalizing s with
  | done a => rfl
  | going => rfl
  | call o k ih => exact ih (handle o s).1 (handle o s).2

theorem exec_pure (a : α) (s : σ) :
    exec handle (pure a : Interaction Res α) s = some (a, s) := rfl

theorem exec_bind_eq_some {p : Interaction Res α} {f : α → Interaction Res β} {s s'' : σ} {b : β}
    (h : exec handle (p >>= f) s = some (b, s'')) :
    ∃ a s', exec handle p s = some (a, s') ∧ exec handle (f a) s' = some (b, s'') := by
  rw [exec_bind] at h
  obtain ⟨⟨a, s'⟩, hp, hf⟩ := Option.bind_eq_some_iff.mp h
  exact ⟨a, s', hp, hf⟩

end Exec

/-! ## §3. Runs in which the device moves. -/

section Runs

variable (env : σ → σ → Prop) (handle : (o : Op) → σ → Res o × σ)

/-- A run: the device may move before each call and before the end. -/
def Runs : Interaction Res α → σ → α → σ → Prop
  | done b, s, a, s' => a = b ∧ Relation.ReflTransGen env s s'
  | going, _, _, _ => False
  | call o k, s, a, s' => ∃ s₁, Relation.ReflTransGen env s s₁ ∧
      Runs (k (handle o s₁).1) (handle o s₁).2 a s'

theorem runs_bind (p : Interaction Res α) (f : α → Interaction Res β) (s : σ) (b : β) (s'' : σ) :
    Runs env handle (p >>= f) s b s'' →
      ∃ a s', Runs env handle p s a s' ∧ Runs env handle (f a) s' b s'' := by
  induction p generalizing s with
  | done a =>
      intro h
      exact ⟨a, s, ⟨rfl, .refl⟩, h⟩
  | going => exact False.elim
  | call o k ih =>
      intro ⟨s₁, hmoved, hrun⟩
      obtain ⟨a, s', hp, hf⟩ := ih _ _ hrun
      exact ⟨a, s', ⟨s₁, hmoved, hp⟩, hf⟩

/-! ## §4. Pre- and postconditions. -/

/-- What the device does on its own keeps `P`. -/
def Stable (P : σ → Prop) : Prop := ∀ s s', P s → env s s' → P s'

variable {env} in
theorem Stable.star {P : σ → Prop} (h : Stable env P) {s s' : σ} (hs : P s)
    (hmoved : Relation.ReflTransGen env s s') : P s' := by
  induction hmoved with
  | refl => exact hs
  | tail _ hstep ih => exact h _ _ ih hstep

/-- A run from a state with `P` that returns is right. -/
def Ensures (P : σ → Prop) (p : Interaction Res α) (Q : α → σ → Prop) : Prop :=
  ∀ s a s', P s → Runs env handle p s a s' → Q a s'

variable {env handle} {P P' : σ → Prop}

theorem ensures_done {Q : α → σ → Prop} {a : α} (hQ : Stable env (Q a))
    (h : ∀ s, P s → Q a s) : Ensures env handle P (done a) Q := by
  intro s b s' hs hrun
  obtain ⟨rfl, hmoved⟩ := hrun
  exact hQ.star (h s hs) hmoved

theorem ensures_bind {p : Interaction Res α} {f : α → Interaction Res β} {Q : α → σ → Prop}
    {R : β → σ → Prop} (hp : Ensures env handle P p Q)
    (hf : ∀ a, Ensures env handle (Q a) (f a) R) : Ensures env handle P (p >>= f) R := by
  intro s b s'' hs hrun
  obtain ⟨a, s', hrun, hrun'⟩ := runs_bind env handle p f s b s'' hrun
  exact hf a s' b s'' (hp s a s' hs hrun) hrun'

/-- A call, from an assertion that the device keeps. -/
theorem ensures_call {o : Op} {k : Res o → Interaction Res α} {Q : α → σ → Prop}
    (hP : Stable env P)
    (hk : ∀ r, Ensures env handle (fun s' => ∃ s, P s ∧ handle o s = (r, s')) (k r) Q) :
    Ensures env handle P (call o k) Q := by
  intro s a s' hs hrun
  obtain ⟨s₁, hmoved, hrun⟩ := hrun
  exact hk _ _ a s' ⟨s₁, hP.star hs hmoved, rfl⟩ hrun

end Runs

/-! ## §5. Runs in which the device does not move. -/

/-- All calls that the program may make are in `A`. -/
def Only (A : Op → Prop) : Interaction Res α → Prop
  | done _ => True
  | going => True
  | call o k => A o ∧ ∀ r, Only A (k r)

theorem Only.bind {A : Op → Prop} {p : Interaction Res α} {f : α → Interaction Res β}
    (hp : Only A p) (hf : ∀ a, Only A (f a)) : Only A (p >>= f) := by
  induction p with
  | done a => exact hf a
  | going => exact trivial
  | call o k ih => exact ⟨hp.1, fun r => ih r (hp.2 r)⟩

/-- Where the device does not move on its own, and the calls do not change that, a run is the run
with the handler. -/
theorem exec_of_runs {env : σ → σ → Prop} {handle : (o : Op) → σ → Res o × σ} {A : Op → Prop}
    {P : σ → Prop} (hstill : ∀ s s', P s → ¬env s s')
    (hkeep : ∀ o s, A o → P s → P (handle o s).2) {p : Interaction Res α} (hp : Only A p) {s s' : σ}
    {a : α} (hs : P s) (h : Runs env handle p s a s') : exec handle p s = some (a, s') ∧ P s' := by
  have hstar : ∀ {s s'}, P s → Relation.ReflTransGen env s s' → s' = s := by
    intro s s' hs hmoved
    rcases Relation.ReflTransGen.cases_head hmoved with h | ⟨s₁, hstep, -⟩
    · exact h.symm
    · exact absurd hstep (hstill s s₁ hs)
  induction p generalizing s with
  | done b =>
      obtain ⟨rfl, hmoved⟩ := h
      have heq := hstar hs hmoved
      rw [heq]
      exact ⟨rfl, hs⟩
  | going => exact absurd h id
  | call o k ih =>
      obtain ⟨s₁, hmoved, hrun⟩ := h
      rw [hstar hs hmoved] at hrun
      exact ih _ (hp.2 _) (hkeep o s hp.1 hs) hrun

/-- The run of a handler on a part of the state. -/
theorem exec_map {τ : Type} {handle : (o : Op) → σ → Res o × σ} {handle' : (o : Op) → τ → Res o × τ}
    (part : τ → σ) (h : ∀ o s, handle o (part s) = ((handle' o s).1, part (handle' o s).2))
    (p : Interaction Res α) (s : τ) :
    exec handle p (part s) = (exec handle' p s).map fun x => (x.1, part x.2) := by
  induction p generalizing s with
  | done a => rfl
  | going => rfl
  | call o k ih =>
      show exec handle (k (handle o (part s)).1) (handle o (part s)).2 = _
      rw [h o s]
      exact ih _ _

/-! ## §6. Moves at given calls. -/

/-- The handler that counts the calls and makes the device move before them. -/
def scheduled (handle : (o : Op) → σ → Res o × σ) (move : Nat → σ → σ) (o : Op) (s : σ × Nat) :
    Res o × σ × Nat :=
  ((handle o (move s.2 s.1)).1, (handle o (move s.2 s.1)).2, s.2 + 1)

theorem runs_of_scheduled {env : σ → σ → Prop} {handle : (o : Op) → σ → Res o × σ}
    {move : Nat → σ → σ} {p : Interaction Res α} {s s' : σ} {n n' : Nat} {a : α}
    (hmove : ∀ n s, Relation.ReflTransGen env s (move n s))
    (h : exec (scheduled handle move) p (s, n) = some (a, s', n')) : Runs env handle p s a s' := by
  induction p generalizing s n with
  | done b =>
      cases h
      exact ⟨rfl, .refl⟩
  | going => cases h
  | call o k ih => exact ⟨move n s, hmove n s, ih _ h⟩

end Interaction

end Metta.Machine
