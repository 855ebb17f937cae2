/-
  Metta.Machine.TicketGate — a sequencer, an event count, and those who
  take tickets.

  Tickets are handed out as 0, 1, 2, … in the order they are asked for; the
  holder of ticket `t` may pass as soon as the count has come to `t`; anyone
  may raise the count, and nobody lowers it.  Passing is not in the order of
  the tickets: whoever looks may go.

    • `Gate`, `Gate.Inv` — the gate, and what all moves keep,
    • `Gate.passes_le` — no more have passed than the count plus one,
    • `Gate.closed_of_full` — when so many have, no ticket that is out passes,
    • `Gate.next_eq_of_alone` — when nobody waits, the tickets are used up.

  The participants are of any type, and the numbers are unbounded.
-/
import Mathlib.Tactic
import Mathlib.Data.Finset.Card

namespace Metta.Machine

/-- The gate: tickets handed out, the count, how often somebody has passed, and
the ticket of everyone who waits. -/
structure Gate (ι : Type*) where
  next : ℕ
  count : ℕ
  passes : ℕ
  waiting : ι → Option ℕ

namespace Gate

variable {ι : Type*} {g : Gate ι} {i j : ι} {t n : ℕ}

/-- Nobody has come yet. -/
def start (ι : Type*) (count : ℕ) : Gate ι := ⟨0, count, 0, fun _ => none⟩

/-- `i` takes the next ticket. -/
def take [DecidableEq ι] (g : Gate ι) (i : ι) : Gate ι :=
  { g with next := g.next + 1, waiting := Function.update g.waiting i (some g.next) }

/-- `i` passes. -/
def pass [DecidableEq ι] (g : Gate ι) (i : ι) : Gate ι :=
  { g with passes := g.passes + 1, waiting := Function.update g.waiting i none }

/-- Somebody raises the count. -/
def raise (g : Gate ι) (n : ℕ) : Gate ι := { g with count := g.count + n }

/-! ## §1. The invariant. -/

/-- `used` are the tickets with which somebody has passed: the tickets handed out are these and
those of the ones who wait. -/
structure Accounts (g : Gate ι) (used : Finset ℕ) : Prop where
  card : used.card = g.passes
  reached : ∀ t ∈ used, t ≤ g.count
  fresh : ∀ i t, g.waiting i = some t → t < g.next ∧ t ∉ used
  apart : ∀ i j t, g.waiting i = some t → g.waiting j = some t → i = j
  none_lost : ∀ t < g.next, t ∈ used ∨ ∃ i, g.waiting i = some t
  handed : ∀ t ∈ used, t < g.next

/-- **The invariant of a gate.** -/
def Inv (g : Gate ι) : Prop := ∃ used, Accounts g used

theorem inv_start (count : ℕ) : (start ι count).Inv := by
  refine ⟨∅, rfl, ?_, ?_, ?_, ?_, ?_⟩
  · exact fun t ht => absurd ht (Finset.notMem_empty t)
  · intro i t h
    cases h
  · intro i j t h
    cases h
  · exact fun t ht => absurd ht (Nat.not_lt_zero t)
  · exact fun t ht => absurd ht (Finset.notMem_empty t)

/-- A ticket that waits after `i` took one is the new one, or it waited before. -/
theorem waiting_take [DecidableEq ι] (h : (g.take i).waiting j = some t) :
    (j = i ∧ t = g.next) ∨ (j ≠ i ∧ g.waiting j = some t) := by
  unfold take at h
  by_cases hj : j = i
  · subst hj
    simp only [Function.update_self, Option.some.injEq] at h
    exact Or.inl ⟨rfl, h.symm⟩
  · simp only [Function.update_of_ne hj] at h
    exact Or.inr ⟨hj, h⟩

/-- **Taking a ticket** keeps the invariant, when `i` has none. -/
theorem Inv.take [DecidableEq ι] (h : g.Inv) (hi : g.waiting i = none) : (g.take i).Inv := by
  obtain ⟨used, A⟩ := h
  have hold : ∀ {j t}, g.waiting j = some t → (g.take i).waiting j = some t := by
    intro j t hj
    have hne : j ≠ i := by
      intro hji
      rw [hji, hi] at hj
      cases hj
    show Function.update g.waiting i (some g.next) j = some t
    rw [Function.update_of_ne hne]
    exact hj
  refine ⟨used, A.card, A.reached, ?_, ?_, ?_, fun t ht => Nat.lt_succ_of_lt (A.handed t ht)⟩
  · intro j t hj
    rcases waiting_take hj with ⟨-, rfl⟩ | ⟨-, hj⟩
    · exact ⟨Nat.lt_succ_self _, fun ht => Nat.lt_irrefl _ (A.handed _ ht)⟩
    · exact ⟨Nat.lt_succ_of_lt (A.fresh j t hj).1, (A.fresh j t hj).2⟩
  · -- the new ticket is larger than every one that was handed out
    intro j k t hj hk
    rcases waiting_take hj with ⟨hj, ht⟩ | ⟨-, hj⟩ <;> rcases waiting_take hk with ⟨hk, ht'⟩ | ⟨-, hk⟩
    · rw [hj, hk]
    · exact absurd (A.fresh k t hk).1 (by omega)
    · exact absurd (A.fresh j t hj).1 (by omega)
    · exact A.apart j k t hj hk
  · intro t ht
    rcases Nat.lt_succ_iff_lt_or_eq.mp ht with ht | ht
    · rcases A.none_lost t ht with hused | ⟨j, hj⟩
      · exact Or.inl hused
      · exact Or.inr ⟨j, hold hj⟩
    · right
      use i
      show Function.update g.waiting i (some g.next) i = some t
      rw [Function.update_self, ht]

/-- **Passing** keeps the invariant, when the count has come to the ticket. -/
theorem Inv.pass [DecidableEq ι] (h : g.Inv) (hi : g.waiting i = some t) (ht : t ≤ g.count) : (g.pass i).Inv := by
  obtain ⟨used, A⟩ := h
  have hlt := (A.fresh i t hi).1
  have hnew := (A.fresh i t hi).2
  have hother : ∀ {j u}, (g.pass i).waiting j = some u → j ≠ i ∧ g.waiting j = some u := by
    intro j u hj
    unfold Gate.pass at hj
    by_cases hji : j = i
    · subst hji
      simp at hj
    · simp only [Function.update_of_ne hji] at hj
      exact ⟨hji, hj⟩
  refine ⟨insert t used, ?_, ?_, ?_, ?_, ?_, ?_⟩
  · rw [Finset.card_insert_of_notMem hnew, A.card]
    rfl
  · intro u hu
    rcases Finset.mem_insert.mp hu with rfl | hu
    · exact ht
    · exact A.reached u hu
  · intro j u hj
    obtain ⟨hne, hj⟩ := hother hj
    refine ⟨(A.fresh j u hj).1, fun hu => ?_⟩
    rcases Finset.mem_insert.mp hu with rfl | hu
    · exact hne (A.apart j i u hj hi)
    · exact (A.fresh j u hj).2 hu
  · intro j k u hj hk
    exact A.apart j k u (hother hj).2 (hother hk).2
  · intro u hu
    by_cases hut : u = t
    · exact Or.inl (Finset.mem_insert.mpr (Or.inl hut))
    rcases A.none_lost u hu with hused | ⟨j, hj⟩
    · exact Or.inl (Finset.mem_insert_of_mem hused)
    · have hne : j ≠ i := by
        intro hji
        rw [hji, hi, Option.some.injEq] at hj
        exact hut hj.symm
      right
      use j
      show Function.update g.waiting i none j = some u
      rw [Function.update_of_ne hne]
      exact hj
  · intro u hu
    rcases Finset.mem_insert.mp hu with rfl | hu
    · exact hlt
    · exact A.handed u hu

/-- **Raising the count** keeps the invariant. -/
theorem Inv.raise (h : g.Inv) (n : ℕ) : (g.raise n).Inv := by
  obtain ⟨used, A⟩ := h
  exact ⟨used, A.card, fun t ht => Nat.le_add_right_of_le (A.reached t ht), A.fresh, A.apart,
    A.none_lost, A.handed⟩

/-! ## §2. Who passes. -/

/-- The tickets that have passed are among `0 … count`. -/
theorem Accounts.subset {used : Finset ℕ} (A : Accounts g used) :
    used ⊆ Finset.range (g.count + 1) := by
  intro t ht
  exact Finset.mem_range.mpr (Nat.lt_succ_of_le (A.reached t ht))

/-- **No more have passed than the count plus one.** -/
theorem passes_le (h : g.Inv) : g.passes ≤ g.count + 1 := by
  obtain ⟨used, A⟩ := h
  rw [← A.card]
  calc used.card ≤ (Finset.range (g.count + 1)).card := Finset.card_le_card A.subset
    _ = g.count + 1 := Finset.card_range _

/-- **A full gate is closed**: when as many have passed as can, no ticket that is out passes. -/
theorem closed_of_full (h : g.Inv) (hfull : g.passes = g.count + 1)
    (hi : g.waiting i = some t) : g.count < t := by
  obtain ⟨used, A⟩ := h
  have hall : used = Finset.range (g.count + 1) := by
    apply Finset.eq_of_subset_of_card_le A.subset
    rw [A.card, hfull, Finset.card_range]
  have hnew := (A.fresh i t hi).2
  rw [hall, Finset.mem_range] at hnew
  omega

/-- Nobody else waits: then so many have passed as tickets are used up. -/
theorem next_eq_of_alone (h : g.Inv) (hnone : ∀ j, g.waiting j = none) : g.next = g.passes := by
  obtain ⟨used, A⟩ := h
  have hall : used = Finset.range g.next := by
    ext t
    rw [Finset.mem_range]
    constructor
    · exact A.handed t
    · intro ht
      rcases A.none_lost t ht with hused | ⟨j, hj⟩
      · exact hused
      · rw [hnone j] at hj
        cases hj
  rw [← A.card, hall, Finset.card_range]

end Gate

end Metta.Machine
