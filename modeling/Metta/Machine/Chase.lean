/-
  Metta.Machine.Chase — loops that follow links.

  A turn of the loop has a result, or goes on from another place.  The places
  that the loop comes to form a chain, and the loop ends exactly when the chain
  does.

    • `Settles` — with enough fuel the result is this one,
    • `Chase.run`, `Link` — the loop and the links that it follows,
    • `settles_run_iff` — the result is the one at the end of the chain,
    • `ends_iff_acc`, `acc_of_acyclic`, `ends_iff_acyclic` — when there is an end,
    • `Simulates` — one loop does what another one does.
-/
import Mathlib.Tactic

namespace Metta.Machine

/-! ## §1. Enough fuel. -/

/-- From some fuel on, the result is `r`. -/
def Settles {β : Type*} (f : Nat → β) (r : β) : Prop := ∃ n, ∀ fuel, n ≤ fuel → f fuel = r

namespace Settles

variable {β γ : Type*} {f : Nat → β} {r r' : β}

theorem of_eq (h : ∀ fuel, f fuel = r) : Settles f r := ⟨0, fun fuel _ => h fuel⟩

theorem unique (h : Settles f r) (h' : Settles f r') : r = r' := by
  obtain ⟨n, hn⟩ := h
  obtain ⟨m, hm⟩ := h'
  rw [← hn (max n m) (le_max_left n m), hm (max n m) (le_max_right n m)]

theorem map (g : β → γ) (h : Settles f r) : Settles (fun fuel => g (f fuel)) (g r) := by
  obtain ⟨n, hn⟩ := h
  exact ⟨n, fun fuel hfuel => congrArg g (hn fuel hfuel)⟩

theorem exists_eq (h : Settles f r) : ∃ fuel, f fuel = r := by
  obtain ⟨n, hn⟩ := h
  exact ⟨n, hn n (le_refl n)⟩

end Settles

/-! ## §2. The loop. -/

namespace Chase

variable {α ρ : Type*} {turn : α → ρ ⊕ α} {a b z : α} {r : ρ} {fuel : Nat}

/-- The loop, with a bound on its turns. -/
def run (turn : α → ρ ⊕ α) : Nat → α → Option ρ
  | 0, _ => none
  | fuel + 1, a =>
      match turn a with
      | .inl r => some r
      | .inr b => run turn fuel b

/-- The loop goes on from `a` to `b`. -/
def Link (turn : α → ρ ⊕ α) (a b : α) : Prop := turn a = .inr b

/-- The loop comes from `a` to `b`. -/
def Reaches (turn : α → ρ ⊕ α) : α → α → Prop := Relation.ReflTransGen (Link turn)

theorem Link.unique {b' : α} (h : Link turn a b) (h' : Link turn a b') : b = b' := by
  rw [Link] at h h'
  rw [h, Sum.inr.injEq] at h'
  exact h'

theorem run_of_result (h : turn a = .inl r) : run turn (fuel + 1) a = some r := by
  rw [run, h]

theorem run_of_link (h : Link turn a b) : run turn (fuel + 1) a = run turn fuel b := by
  rw [run, show turn a = .inr b from h]

/-- A result comes from a place that the loop reaches. -/
theorem reaches_of_run (h : run turn fuel a = some r) :
    ∃ z, Reaches turn a z ∧ turn z = .inl r := by
  induction fuel generalizing a with
  | zero => cases h
  | succ fuel ih =>
      cases hturn : turn a with
      | inl r' =>
          rw [run_of_result hturn] at h
          cases h
          exact ⟨a, .refl, hturn⟩
      | inr b =>
          rw [run_of_link hturn] at h
          obtain ⟨z, hz, hr⟩ := ih h
          exact ⟨z, .head hturn hz, hr⟩

/-- At a place that has a result, the loop ends with it. -/
theorem settles_run (hreach : Reaches turn a z) (hr : turn z = .inl r) :
    Settles (fun fuel => run turn fuel a) (some r) := by
  induction hreach using Relation.ReflTransGen.head_induction_on with
  | refl =>
      refine ⟨1, fun fuel hfuel => ?_⟩
      obtain ⟨fuel, rfl⟩ := Nat.exists_eq_add_of_le' hfuel
      exact run_of_result hr
  | head hlink _ ih =>
      obtain ⟨n, hn⟩ := ih
      refine ⟨n + 1, fun fuel hfuel => ?_⟩
      obtain ⟨fuel, rfl⟩ := Nat.exists_eq_add_of_le' (Nat.le_trans (Nat.le_add_left 1 n) hfuel)
      exact (run_of_link hlink).trans (hn fuel (Nat.le_of_succ_le_succ hfuel))

/-- **The result of the loop** is the one at the end of the chain. -/
theorem settles_run_iff :
    Settles (fun fuel => run turn fuel a) (some r) ↔
      ∃ z, Reaches turn a z ∧ turn z = .inl r := by
  constructor
  · intro h
    obtain ⟨fuel, hfuel⟩ := h.exists_eq
    exact reaches_of_run hfuel
  · rintro ⟨z, hz, hr⟩
    exact settles_run hz hr

/-- The loop ends, with some fuel, when the chain does. -/
theorem exists_run_iff :
    (∃ fuel r, run turn fuel a = some r) ↔ ∃ z r, Reaches turn a z ∧ turn z = .inl r := by
  constructor
  · rintro ⟨fuel, r, hr⟩
    obtain ⟨z, hz, hturn⟩ := reaches_of_run hr
    exact ⟨z, r, hz, hturn⟩
  · rintro ⟨z, r, hz, hturn⟩
    obtain ⟨fuel, hfuel⟩ := (settles_run hz hturn).exists_eq
    exact ⟨fuel, r, hfuel⟩

/-- Where the loop has a result it goes no further. -/
theorem Reaches.eq_of_result (h : Reaches turn a b) (hr : turn a = .inl r) : b = a := by
  rcases Relation.ReflTransGen.cases_head h with rfl | ⟨c, hlink, -⟩
  · rfl
  · rw [Link, hr] at hlink
    cases hlink

/-- Two places on one chain: one comes before the other. -/
theorem Reaches.of_reaches (h : Reaches turn a b) (h' : Reaches turn a z) :
    Reaches turn b z ∨ Reaches turn z b :=
  Relation.ReflTransGen.total_of_right_unique (fun _ _ _ hb hc => Link.unique hb hc) h h'

/-! ## §3. Chains that end. -/

/-- The loop ends exactly when its links cannot be followed for ever. -/
theorem ends_iff_acc :
    (∃ z r, Reaches turn a z ∧ turn z = .inl r) ↔ Acc (fun b a => Link turn a b) a := by
  constructor
  · rintro ⟨z, r, hz, hr⟩
    induction hz using Relation.ReflTransGen.head_induction_on with
    | refl =>
        refine .intro _ fun b hlink => ?_
        rw [Link, hr] at hlink
        cases hlink
    | head hlink _ ih =>
        refine .intro _ fun b hb => ?_
        rw [← Link.unique hlink hb]
        exact ih
  · intro h
    induction h with
    | intro a _ ih =>
        cases hturn : turn a with
        | inl r => exact ⟨a, r, .refl, hturn⟩
        | inr b =>
            obtain ⟨z, r, hz, hr⟩ := ih b hturn
            exact ⟨z, r, .head hturn hz, hr⟩

/-- **Links that start at finitely many places and form no cycle** cannot be followed for
ever. -/
theorem acc_of_acyclic {rel : α → α → Prop} (places : List α)
    (hplaces : ∀ a b, rel a b → a ∈ places) (hacyclic : ∀ a, ¬ Relation.TransGen rel a a)
    (a : α) : Acc (fun b a => rel a b) a := by
  have hfinite : Finite {a // a ∈ places} := places.finite_toSet
  have hwf : WellFounded fun x y : {a // a ∈ places} => Relation.TransGen rel y.1 x.1 := by
    have htrans : IsTrans {a // a ∈ places} fun x y => Relation.TransGen rel y.1 x.1 :=
      ⟨fun _ _ _ hxy hyz => hyz.trans hxy⟩
    have hirrefl : Std.Irrefl fun x y : {a // a ∈ places} => Relation.TransGen rel y.1 x.1 :=
      ⟨fun x => hacyclic x.1⟩
    exact Finite.wellFounded_of_trans_of_irrefl _
  have hmem : ∀ x : {a // a ∈ places}, Acc (fun b a => rel a b) x.1 := fun x => by
    induction x using hwf.induction with
    | h x ih =>
        refine .intro _ fun b hb => ?_
        by_cases hin : b ∈ places
        · exact ih ⟨b, hin⟩ (.single hb)
        · exact .intro _ fun c hc => absurd (hplaces b c hc) hin
  refine .intro _ fun b hb => ?_
  by_cases hin : b ∈ places
  · exact hmem ⟨b, hin⟩
  · exact .intro _ fun c hc => absurd (hplaces b c hc) hin

/-- A place that leads back to itself has no end. -/
theorem not_transGen_of_acc (h : Acc (fun b a => Link turn a b) a) :
    ¬ Relation.TransGen (Link turn) a a := by
  have hirrefl : ∀ x, Acc (Relation.TransGen fun b a => Link turn a b) x →
      ¬ Relation.TransGen (fun b a => Link turn a b) x x := by
    intro x hx
    induction hx with
    | intro x _ ih => exact fun hcycle => ih x hcycle hcycle
  intro hcycle
  exact hirrefl a h.transGen (Relation.transGen_swap.mpr hcycle)

/-- A loop that ends comes to no place again. -/
theorem acyclic_of_ends (h : ∃ z r, Reaches turn a z ∧ turn z = .inl r) (hb : Reaches turn a b) :
    ¬ Relation.TransGen (Link turn) b b := by
  obtain ⟨z, r, hz, hr⟩ := h
  apply not_transGen_of_acc
  apply ends_iff_acc.mp
  rcases hb.of_reaches hz with hbz | hzb
  · exact ⟨z, r, hbz, hr⟩
  · rw [hzb.eq_of_result hr]
    exact ⟨z, r, .refl, hr⟩

/-- **When the places it comes to are finitely many, the loop ends exactly when it comes to none
of them again.** -/
theorem ends_iff_acyclic (places : List α)
    (hplaces : ∀ b c, Reaches turn a b → Link turn b c → b ∈ places) :
    (∃ z r, Reaches turn a z ∧ turn z = .inl r) ↔
      ∀ b, Reaches turn a b → ¬ Relation.TransGen (Link turn) b b := by
  constructor
  · intro h b hb
    exact acyclic_of_ends h hb
  · intro hacyclic
    rw [ends_iff_acc]
    -- only the links of the chain count
    let rel (b c : α) : Prop := Reaches turn a b ∧ Link turn b c
    have hmono : ∀ b c, Relation.TransGen rel b c →
        Reaches turn a b ∧ Relation.TransGen (Link turn) b c := fun b c h => by
      induction h with
      | single h => exact ⟨h.1, .single h.2⟩
      | tail _ h ih => exact ⟨ih.1, ih.2.tail h.2⟩
    have hacc : Acc (fun c b => rel b c) a := by
      refine acc_of_acyclic places (fun b c h => hplaces b c h.1 h.2) (fun b hb => ?_) a
      obtain ⟨hreach, hcycle⟩ := hmono b b hb
      exact hacyclic b hreach hcycle
    have hchain : ∀ b, Reaches turn a b → Acc (fun c b => rel b c) b →
        Acc (fun c b => Link turn b c) b := by
      intro b hb h
      induction h with
      | intro b _ ih => exact .intro _ fun c hc => ih c ⟨hb, hc⟩ (hb.tail hc)
    exact hchain a .refl hacc

/-- A loop that always goes on has no result. -/
theorem run_of_invariant {P : α → Prop} (hstep : ∀ x, P x → ∃ y, Link turn x y ∧ P y) (h : P a)
    (fuel : Nat) : run turn fuel a = none := by
  induction fuel generalizing a with
  | zero => rfl
  | succ fuel ih =>
      obtain ⟨y, hlink, hy⟩ := hstep a h
      rw [run_of_link hlink]
      exact ih hy

/-! ## §4. Loops that do the same. -/

section Simulation

variable {β ρ' : Type*} {turn' : β → ρ' ⊕ β} {rel : β → α → Prop} {belongs : ρ' → ρ → Prop}

/-- A loop does in one turn or in several what the loop of `turn'` does in one, and has the result
that belongs to the one of that loop. -/
structure Simulates (turn : α → ρ ⊕ α) (turn' : β → ρ' ⊕ β) (rel : β → α → Prop)
    (belongs : ρ' → ρ → Prop) : Prop where
  link : ∀ {b a b'}, rel b a → Link turn' b b' →
    ∃ a', Relation.TransGen (Link turn) a a' ∧ rel b' a'
  end_ : ∀ {b a r'}, rel b a → turn' b = .inl r' →
    ∃ z r, Reaches turn a z ∧ turn z = .inl r ∧ belongs r' r

namespace Simulates

/-- The result of the simulated loop has one that belongs to it. -/
theorem result (h : Simulates turn turn' rel belongs) {b z' : β} {a : α} {r' : ρ'} (hrel : rel b a)
    (hz : Reaches turn' b z') (hr : turn' z' = .inl r') :
    ∃ z r, Reaches turn a z ∧ turn z = .inl r ∧ belongs r' r := by
  induction hz using Relation.ReflTransGen.head_induction_on generalizing a with
  | refl => exact h.end_ hrel hr
  | head hlink _ ih =>
      obtain ⟨a', hlinks, hrel'⟩ := h.link hrel hlink
      obtain ⟨z, r, hz, hr⟩ := ih hrel'
      exact ⟨z, r, hlinks.to_reflTransGen.trans hz, hr⟩

/-- **The simulated loop ends exactly when the loop does.** -/
theorem ends_iff (h : Simulates turn turn' rel belongs) {b : β} {a : α} (hrel : rel b a) :
    (∃ z r, Reaches turn a z ∧ turn z = .inl r) ↔ ∃ z r, Reaches turn' b z ∧ turn' z = .inl r := by
  constructor
  · rw [ends_iff_acc, ends_iff_acc]
    intro hacc
    have htrans := hacc.transGen
    clear hacc
    induction htrans generalizing b with
    | intro a _ ih =>
        refine .intro _ fun b' hlink => ?_
        obtain ⟨a', hlinks, hrel'⟩ := h.link hrel hlink
        exact ih a' (Relation.transGen_swap.mp hlinks) hrel'
  · rintro ⟨z', r', hz, hr⟩
    obtain ⟨z, r, hz, hr, -⟩ := h.result hrel hz hr
    exact ⟨z, r, hz, hr⟩

end Simulates

end Simulation

end Chase

end Metta.Machine
