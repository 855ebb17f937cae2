/-
  Metta.Machine.Cover — extents that share out an interval.

  Extents share out `[0, n)` when every number below `n` is in exactly one of
  them and no other number is in any.  Counting makes cutting easy: an extent
  may be replaced by others that together have each number as often.

    • `Shares.replace`, `cover_cut` — cutting,
    • `pairwise_of_cover_le_one` — extents without a common number,
    • `Shares.pairwise`, `Shares.exists_mem` — disjoint, and nothing left over.
-/
import Mathlib.Tactic

namespace Metta.Machine

/-- The numbers from `start` on, `length` of them. -/
structure Extent where
  start : Nat
  length : Nat
  deriving DecidableEq, Repr

namespace Extent

/-- `p` is in the extent. -/
def Has (e : Extent) (p : Nat) : Prop := e.start ≤ p ∧ p < e.start + e.length

instance (e : Extent) (p : Nat) : Decidable (e.Has p) :=
  inferInstanceAs (Decidable (_ ∧ _))

/-- The extent does not reach out of the other. -/
def Within (e e' : Extent) : Prop :=
  e'.start ≤ e.start ∧ e.start + e.length ≤ e'.start + e'.length

/-- No number is in both. -/
def Apart (e e' : Extent) : Prop := ∀ p, ¬ (e.Has p ∧ e'.Has p)

end Extent

/-- How many of the extents have `p`. -/
def cover (es : List Extent) (p : Nat) : Nat := es.countP fun e => e.Has p

/-- The extents share out `[0, n)`. -/
def Shares (n : Nat) (es : List Extent) : Prop := ∀ p, cover es p = if p < n then 1 else 0

variable {n : Nat} {e : Extent} {es es' : List Extent}

theorem cover_append (es es' : List Extent) (p : Nat) :
    cover (es ++ es') p = cover es p + cover es' p := List.countP_append ..

theorem cover_cons (e : Extent) (es : List Extent) (p : Nat) :
    cover (e :: es) p = cover es p + if e.Has p then 1 else 0 := by
  rw [cover, List.countP_cons]
  simp [cover]

/-- Two extents that meet count as one. -/
theorem cover_cut (a k m p : Nat) : cover [⟨a, k⟩, ⟨a + k, m⟩] p = cover [⟨a, k + m⟩] p := by
  have hiff : (⟨a, k + m⟩ : Extent).Has p ↔
      (⟨a, k⟩ : Extent).Has p ∨ (⟨a + k, m⟩ : Extent).Has p := by
    simp only [Extent.Has]
    omega
  have hnot : ¬ ((⟨a, k⟩ : Extent).Has p ∧ (⟨a + k, m⟩ : Extent).Has p) := by
    simp only [Extent.Has]
    omega
  rw [cover_cons, cover_cons, cover_cons]
  split_ifs <;> tauto

/-- The same cut with the second extent named first. -/
theorem cover_cut_swap (a k m p : Nat) : cover [⟨a + k, m⟩, ⟨a, k⟩] p = cover [⟨a, k + m⟩] p := by
  rw [← cover_cut]
  exact (List.Perm.swap _ _ _).countP_eq _

/-- An extent with its middle named first. -/
theorem cover_cut_middle (a k m n p : Nat) :
    cover [⟨a + k, m⟩, ⟨a, k⟩, ⟨a + k + m, n⟩] p = cover [⟨a, k + (m + n)⟩] p := by
  have hright := cover_cut (a + k) m n p
  have hall := cover_cut a k (m + n) p
  simp only [cover_cons] at hright hall ⊢
  omega

theorem cover_pos_iff {p : Nat} : 0 < cover es p ↔ ∃ e ∈ es, e.Has p := by
  simp only [cover, List.countP_pos_iff, decide_eq_true_eq]

/-- Extents that have no number twice are apart. -/
theorem pairwise_of_cover_le_one (hle : ∀ p, cover es p ≤ 1) : es.Pairwise Extent.Apart := by
  induction es with
  | nil => exact .nil
  | cons e es ih =>
      refine .cons ?_ (ih fun p => ?_)
      · rintro e' he' p ⟨hp, hp'⟩
        have hone := hle p
        rw [cover_cons, if_pos hp] at hone
        have hpos : 0 < cover es p := cover_pos_iff.mpr ⟨e', he', hp'⟩
        omega
      · have := hle p
        rw [cover_cons] at this
        omega

namespace Shares

theorem perm (h : Shares n es) (hp : es.Perm es') : Shares n es' := by
  intro p
  rw [← h p]
  exact (hp.countP_eq _).symm

/-- An extent is replaced by others. -/
theorem replace {ds : List Extent} (h : Shares n (e :: es)) (hd : ∀ p, cover ds p = cover [e] p) :
    Shares n (ds ++ es) := by
  intro p
  have hsum : cover (e :: es) p = cover [e] p + cover es p := cover_append [e] es p
  rw [← h p, cover_append, hd, hsum]

theorem pairwise (h : Shares n es) : es.Pairwise Extent.Apart := by
  refine pairwise_of_cover_le_one fun p => ?_
  rw [h p]
  split_ifs <;> omega

theorem exists_mem (h : Shares n es) {p : Nat} (hp : p < n) : ∃ e ∈ es, e.Has p := by
  have hone := h p
  rw [if_pos hp] at hone
  exact cover_pos_iff.mp (by omega)

theorem lt_of_mem (h : Shares n es) (he : e ∈ es) {p : Nat} (hp : e.Has p) : p < n := by
  by_contra hge
  have hzero := h p
  rw [if_neg hge] at hzero
  have hpos : 0 < cover es p := cover_pos_iff.mpr ⟨e, he, hp⟩
  omega

/-- A non-empty extent ends no later than the interval. -/
theorem end_le (h : Shares n es) (he : e ∈ es) (hpos : 0 < e.length) : e.start + e.length ≤ n := by
  have := h.lt_of_mem he (show e.Has (e.start + e.length - 1) from ⟨by omega, by omega⟩)
  omega

end Shares

end Metta.Machine
