/-
  Metta.Machine.Trace — runs of a labelled machine, with the states they pass.

  A machine takes labelled steps, each of which may not be possible.  A trace
  keeps every state a step was taken in, newest first, so that what holds "at
  every step of a run" is a statement about the members of a list.

    • `Trace.invariant` — what good steps keep holds wherever a trace passes,
    • `runList`, `Trace.of_runList` — the trace of a list of labels.
-/
import Mathlib.Tactic

namespace Metta.Machine

universe u v

variable {σ : Type u} {α : Type v} {step : σ → α → Option σ} {s₀ s : σ} {tr : List (σ × α)}

/-- The runs from `s₀`: the steps taken, each with the state before it, and the
state they end in. -/
inductive Trace (step : σ → α → Option σ) (s₀ : σ) : List (σ × α) → σ → Prop where
  | nil : Trace step s₀ [] s₀
  | snoc {tr s l s'} : Trace step s₀ tr s → step s l = some s' → Trace step s₀ ((s, l) :: tr) s'

/-- **Invariants of good steps** hold in every state of a trace of good steps. -/
theorem Trace.invariant {P : σ → Prop} {ok : σ × α → Prop} (h : Trace step s₀ tr s) (h₀ : P s₀)
    (hstep : ∀ {s l s'}, P s → ok (s, l) → step s l = some s' → P s')
    (hok : ∀ p ∈ tr, ok p) : P s ∧ ∀ p ∈ tr, P p.1 := by
  induction h with
  | nil => exact ⟨h₀, fun p hp => (List.not_mem_nil hp).elim⟩
  | snoc _ hs ih =>
      obtain ⟨hlast, hpassed⟩ := ih fun p hp => hok p (List.mem_cons_of_mem _ hp)
      refine ⟨hstep hlast (hok _ List.mem_cons_self) hs, fun p hp => ?_⟩
      rcases List.mem_cons.mp hp with rfl | hp
      · exact hlast
      · exact hpassed p hp

/-- The steps of a trace were possible. -/
theorem Trace.possible (h : Trace step s₀ tr s) : ∀ p ∈ tr, ∃ s', step p.1 p.2 = some s' := by
  induction h with
  | nil => exact fun p hp => (List.not_mem_nil hp).elim
  | snoc _ hs ih =>
      intro p hp
      rcases List.mem_cons.mp hp with rfl | hp
      · exact ⟨_, hs⟩
      · exact ih p hp

/-- The state after the steps `ls`, if they are all possible. -/
def runList (step : σ → α → Option σ) (s : σ) : List α → Option σ
  | [] => some s
  | l :: ls => (step s l).bind fun s' => runList step s' ls

theorem Trace.extend (h : Trace step s₀ tr s) {ls : List α} {s' : σ}
    (hrun : runList step s ls = some s') :
    ∃ tr', Trace step s₀ tr' s' ∧ tr'.map Prod.snd = ls.reverse ++ tr.map Prod.snd := by
  induction ls generalizing s tr with
  | nil => cases hrun; exact ⟨tr, h, rfl⟩
  | cons l ls ih =>
      obtain ⟨s₁, hs₁, hrun⟩ := Option.bind_eq_some_iff.mp hrun
      obtain ⟨tr', h', hmap⟩ := ih (h.snoc hs₁) hrun
      refine ⟨tr', h', ?_⟩
      rw [hmap, List.reverse_cons, List.append_assoc]
      rfl

/-- Possible steps make a trace. -/
theorem Trace.of_runList {ls : List α} (hrun : runList step s₀ ls = some s) :
    ∃ tr, Trace step s₀ tr s ∧ tr.map Prod.snd = ls.reverse := by
  obtain ⟨tr, h, hmap⟩ := Trace.nil.extend hrun
  rw [List.map_nil, List.append_nil] at hmap
  exact ⟨tr, h, hmap⟩

/-- A trace of steps that were checked before they were taken. -/
theorem Trace.of_checked {ok : σ → α → Bool}
    (h : Trace (fun s l => if ok s l then step s l else none) s₀ tr s) :
    Trace step s₀ tr s ∧ ∀ p ∈ tr, ok p.1 p.2 = true := by
  induction h with
  | nil => exact ⟨.nil, fun p hp => (List.not_mem_nil hp).elim⟩
  | snoc _ hs ih =>
      obtain ⟨htrace, hok⟩ := ih
      split at hs
      · next hl =>
        refine ⟨htrace.snoc hs, fun p hp => ?_⟩
        rcases List.mem_cons.mp hp with rfl | hp
        · exact hl
        · exact hok p hp
      · cases hs

end Metta.Machine
