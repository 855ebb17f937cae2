/-
  Metta.Machine.Exits — computations that leave in two ways.

  A computation changes a state and then returns or stops; when it stops the
  state is what it has come to.  A triple has a postcondition for each way:

    • `Act` — the computations, with `finally_`,
    • `Act.Spec` — from `pre`, it returns with `post` or stops with `exits`,
    • `Spec.bind`, `Spec.finally_` — the rules.
-/
import Mathlib.Tactic

namespace Metta.Machine

universe u

/-- A computation on states `σ` that returns, or stops with an `ε`. -/
def Act (ε σ α : Type u) : Type u := σ → Except ε α × σ

namespace Act

variable {ε σ α β : Type u}

/-- The rest is done when the first part returns. -/
def bind (x : Act ε σ α) (f : α → Act ε σ β) : Act ε σ β := fun c =>
  match x c with
  | (.ok a, c) => f a c
  | (.error e, c) => (.error e, c)

instance : Monad (Act ε σ) where
  pure a := fun c => (.ok a, c)
  bind := bind

/-- Stop. -/
def stop (e : ε) : Act ε σ α := fun c => (.error e, c)

/-- Change the state. -/
def modify (f : σ → σ) : Act ε σ PUnit := fun c => (.ok ⟨⟩, f c)

/-- `y` is done after `x`, also when `x` stops with something that is caught. -/
def finally_ (caught : ε → Bool) (x : Act ε σ α) (y : Act ε σ PUnit) : Act ε σ α := fun c =>
  match x c with
  | (.ok a, c) => bind y (fun _ => pure a) c
  | (.error e, c) => if caught e then bind y (fun _ => stop e) c else (.error e, c)

theorem bind_ok {x : Act ε σ α} {f : α → Act ε σ β} {c c' : σ} {a : α} (h : x c = (.ok a, c')) :
    (x >>= f) c = f a c' := by
  show bind x f c = _
  rw [bind, h]

theorem bind_error {x : Act ε σ α} {f : α → Act ε σ β} {c c' : σ} {e : ε}
    (h : x c = (.error e, c')) : (x >>= f) c = (.error e, c') := by
  show bind x f c = _
  rw [bind, h]

/-- It has returned with `post`, or stopped with `exits`. -/
def Ended (post : α → σ → Prop) (exits : ε → σ → Prop) : Except ε α × σ → Prop
  | (.ok a, c) => post a c
  | (.error e, c) => exits e c

theorem Ended.mono {post post' : α → σ → Prop} {exits exits' : ε → σ → Prop} {out : Except ε α × σ}
    (h : Ended post exits out) (hpost : ∀ a c, post a c → post' a c)
    (hexits : ∀ e c, exits e c → exits' e c) : Ended post' exits' out := by
  obtain ⟨r, c⟩ := out
  cases r with
  | ok a => exact hpost a c h
  | error e => exact hexits e c h

/-- From `pre` the computation returns with `post`, or stops with `exits`. -/
def Spec (pre : σ → Prop) (x : Act ε σ α) (post : α → σ → Prop) (exits : ε → σ → Prop) : Prop :=
  ∀ c, pre c → Ended post exits (x c)

namespace Spec

variable {pre pre' : σ → Prop} {post post' : α → σ → Prop} {mid : β → σ → Prop}
  {exits exits' : ε → σ → Prop}

theorem conseq {x : Act ε σ α} (h : Spec pre x post exits) (hpre : ∀ c, pre' c → pre c)
    (hpost : ∀ a c, post a c → post' a c) (hexits : ∀ e c, exits e c → exits' e c) :
    Spec pre' x post' exits' := fun c hc => (h c (hpre c hc)).mono hpost hexits

theorem pure {a : α} (h : ∀ c, pre c → post a c) :
    Spec pre (Pure.pure a : Act ε σ α) post exits := h

theorem stop {e : ε} (h : ∀ c, pre c → exits e c) :
    Spec pre (Act.stop e : Act ε σ α) post exits := h

theorem modify {post : PUnit → σ → Prop} {f : σ → σ} (h : ∀ c, pre c → post ⟨⟩ (f c)) :
    Spec pre (Act.modify f : Act ε σ PUnit) post exits := h

/-- **One after the other.** -/
theorem bind {x : Act ε σ β} {f : β → Act ε σ α} (hx : Spec pre x mid exits)
    (hf : ∀ b, Spec (mid b) (f b) post exits) : Spec pre (x >>= f) post exits := by
  intro c hc
  have hended := hx c hc
  show Ended post exits (Act.bind x f c)
  rw [Act.bind]
  cases hxc : x c with
  | mk r c₁ =>
      rw [hxc] at hended
      cases r with
      | ok b => exact hf b c₁ hended
      | error e => exact hended

/-- One after the other, where what holds in between is given. -/
theorem through (mid : β → σ → Prop) {x : Act ε σ β} {f : β → Act ε σ α}
    (hx : Spec pre x mid exits) (hf : ∀ b, Spec (mid b) (f b) post exits) :
    Spec pre (x >>= f) post exits := hx.bind hf

theorem ite {p : Prop} [Decidable p] {x y : Act ε σ α} (hx : p → Spec pre x post exits)
    (hy : ¬ p → Spec pre y post exits) : Spec pre (if p then x else y) post exits := by
  split
  · next h => exact hx h
  · next h => exact hy h

/-- **The second part is done on both ways out.** -/
theorem finally_ {caught : ε → Bool} {x : Act ε σ α} {y : Act ε σ PUnit}
    {mid : α → σ → Prop} {midExits : ε → σ → Prop} (hx : Spec pre x mid midExits)
    (hok : ∀ a, Spec (mid a) y (fun _ => post a) exits)
    (hcaught : ∀ e, caught e = true → Spec (midExits e) y (fun _ => exits e) exits)
    (hrest : ∀ e c, caught e = false → midExits e c → exits e c) :
    Spec pre (Act.finally_ caught x y) post exits := by
  intro c hc
  have hended := hx c hc
  rw [Act.finally_]
  cases hxc : x c with
  | mk r c₁ =>
      rw [hxc] at hended
      cases r with
      | ok a => exact (bind (hok a) fun _ => Spec.pure fun _ h => h) c₁ hended
      | error e =>
          by_cases he : caught e = true
          · simp only [he, if_true]
            exact (bind (hcaught e he) fun _ => Spec.stop fun _ h => h) c₁ hended
          · simp only [he]
            exact hrest e c₁ (by simpa using he) hended

end Spec

end Act

end Metta.Machine
