/-
  Metta.Machine.Outcome — taking fallible computations apart.

  A call that can fail is an `Except`; these are the four ways a sequence of
  such calls can have ended, so that proofs peel a computation apart with
  `obtain` and never unfold `bind`, and the rule for a loop of such calls.
-/
import Mathlib.Tactic

namespace Metta.Machine

variable {ε α β : Type*}

theorem bind_eq_ok {x : Except ε α} {f : α → Except ε β} {b : β} :
    x.bind f = .ok b ↔ ∃ a, x = .ok a ∧ f a = .ok b := by
  cases x with
  | error e => simp [Except.bind]
  | ok a => simp [Except.bind]

theorem map_eq_ok {x : Except ε α} {f : α → β} {b : β} :
    x.map f = .ok b ↔ ∃ a, x = .ok a ∧ f a = b := by
  cases x with
  | error e => simp [Except.map]
  | ok a => simp [Except.map]

theorem bind_eq_error {x : Except ε α} {f : α → Except ε β} {e : ε} :
    x.bind f = .error e ↔ x = .error e ∨ ∃ a, x = .ok a ∧ f a = .error e := by
  cases x with
  | error e => simp [Except.bind]
  | ok a => simp [Except.bind]

theorem map_eq_error {x : Except ε α} {f : α → β} {e : ε} :
    x.map f = .error e ↔ x = .error e := by
  cases x with
  | error e => simp [Except.map]
  | ok a => simp [Except.map]

theorem foldl_bind_error (f : β → α → Except ε α) (e : ε) (xs : List β) :
    xs.foldl (fun (r : Except ε α) x => r.bind (f x)) (.error e) = .error e := by
  induction xs with
  | nil => rfl
  | cons x xs ih => exact ih

theorem foldl_bind_cons (f : β → α → Except ε α) (a : α) (x : β) (xs : List β) :
    (x :: xs).foldl (fun (r : Except ε α) x => r.bind (f x)) (.ok a)
      = (f x a).bind fun a => xs.foldl (fun (r : Except ε α) x => r.bind (f x)) (.ok a) := by
  rw [List.foldl_cons, Except.bind]
  cases f x a with
  | error e => exact foldl_bind_error f e xs
  | ok a => rfl

/-- **What every turn of a loop keeps** is so when the loop has come to its end. -/
theorem foldl_bind_invariant {f : β → α → Except ε α} (P : α → Prop) {xs : List β} {a b : α}
    (hstart : P a) (hstep : ∀ x ∈ xs, ∀ a a', P a → f x a = .ok a' → P a')
    (h : xs.foldl (fun (r : Except ε α) x => r.bind (f x)) (.ok a) = .ok b) : P b := by
  induction xs generalizing a with
  | nil =>
      cases h
      exact hstart
  | cons x xs ih =>
      rw [foldl_bind_cons] at h
      obtain ⟨a', ha', h⟩ := bind_eq_ok.mp h
      exact ih (hstep x List.mem_cons_self a a' hstart ha')
        (fun x' hx' => hstep x' (List.mem_cons_of_mem _ hx')) h

end Metta.Machine
