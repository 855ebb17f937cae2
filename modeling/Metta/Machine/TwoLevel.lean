/-
  Metta.Machine.TwoLevel — a map kept in chunks behind a directory.

  The directory sends an upper index to the chunk that holds the values of
  its lower indices, if it has one.  No chunk serves two upper indices; a
  value of the type carries the proof, so nothing below has to ask.

    • `lookup_install` — installing an empty chunk changes no lookup,
    • `lookup_write` — a write changes the lookup of its own pair of
      indices and no other.
-/
import Mathlib.Tactic

namespace Metta.Machine

universe u

/-- A directory of chunks, no chunk under two indices. -/
structure TwoLevel (ι κ γ V : Type u) where
  /-- The chunk of an upper index. -/
  dir : ι → Option γ
  /-- The value a chunk keeps for a lower index. -/
  cell : γ → κ → Option V
  inj : ∀ {i j : ι} {c : γ}, dir i = some c → dir j = some c → i = j

namespace TwoLevel

variable {ι κ γ V : Type u} [DecidableEq ι] [DecidableEq κ] [DecidableEq γ]

/-- The table with no chunks. -/
def empty : TwoLevel ι κ γ V where
  dir _ := none
  cell _ _ := none
  inj h := nomatch h

/-- The value at a pair of indices. -/
def lookup (t : TwoLevel ι κ γ V) (i : ι) (k : κ) : Option V :=
  (t.dir i).bind fun c => t.cell c k

/-- Put the chunk `c`, emptied, under the index `i`. -/
def install (t : TwoLevel ι κ γ V) (i : ι) (c : γ) (hfresh : ∀ j, t.dir j ≠ some c) :
    TwoLevel ι κ γ V where
  dir := Function.update t.dir i (some c)
  cell := Function.update t.cell c fun _ => none
  inj := by
    intro j j' d h h'
    by_cases hj : j = i <;> by_cases hj' : j' = i
    · rw [hj, hj']
    · rw [hj, Function.update_self, Option.some_inj] at h
      rw [Function.update_of_ne hj', ← h] at h'
      exact absurd h' (hfresh j')
    · rw [hj', Function.update_self, Option.some_inj] at h'
      rw [Function.update_of_ne hj, ← h'] at h
      exact absurd h (hfresh j)
    · rw [Function.update_of_ne hj] at h
      rw [Function.update_of_ne hj'] at h'
      exact t.inj h h'

/-- Set the value at lower index `k` of the chunk `c`. -/
def write (t : TwoLevel ι κ γ V) (c : γ) (k : κ) (v : V) : TwoLevel ι κ γ V :=
  { t with cell := Function.update t.cell c (Function.update (t.cell c) k (some v)) }

omit [DecidableEq κ] in
/-- **An installed chunk is empty**: no lookup changes. -/
theorem lookup_install {t : TwoLevel ι κ γ V} {i : ι} {c : γ}
    {hfresh : ∀ j, t.dir j ≠ some c} (hnone : t.dir i = none) (j : ι) (k : κ) :
    (t.install i c hfresh).lookup j k = t.lookup j k := by
  by_cases hj : j = i
  · subst hj
    simp [lookup, install, hnone]
  · simp only [lookup, install, Function.update_of_ne hj]
    cases hd : t.dir j with
    | none => rfl
    | some d =>
        have hdc : d ≠ c := fun h => hfresh j (by rw [hd, h])
        simp [Function.update_of_ne hdc]

/-- **A write is seen at its own indices only.** -/
theorem lookup_write {t : TwoLevel ι κ γ V} {i : ι} {c : γ} (hdir : t.dir i = some c)
    (k : κ) (v : V) (j : ι) (l : κ) :
    (t.write c k v).lookup j l = if j = i ∧ l = k then some v else t.lookup j l := by
  by_cases hj : j = i
  · subst hj
    by_cases hl : l = k
    · subst hl
      simp [lookup, write, hdir]
    · simp [lookup, write, hdir, hl]
  · rw [if_neg fun h => hj h.1]
    simp only [lookup, write]
    cases hd : t.dir j with
    | none => rfl
    | some d =>
        -- the written chunk serves `i` and so no other index
        have hdc : d ≠ c := fun h => hj (t.inj (by rw [hd, h]) hdir)
        simp [Function.update_of_ne hdc]

end TwoLevel

end Metta.Machine
