/-
  Metta.Machine.Placement — putting things one behind the other.

  A cursor moves through memory; each thing is put at the next multiple of its
  alignment and the cursor goes behind it.

    • `alignTo` — the next multiple,
    • `Stacked` — extents in order between two addresses, hence disjoint,
    • `place` — where things go, `place_stacked`, `place_aligned`.
-/
import Metta.Machine.Cover

namespace Metta.Machine

/-! ## §1. Multiples. -/

/-- The first multiple of `n` that is not below `a`. -/
def alignTo (n a : Nat) : Nat := a + (n - a % n) % n

theorem le_alignTo (n a : Nat) : a ≤ alignTo n a := Nat.le_add_right _ _

theorem alignTo_mod {n : Nat} (hn : 0 < n) (a : Nat) : alignTo n a % n = 0 := by
  have hlt := Nat.mod_lt a hn
  rw [alignTo, Nat.add_mod_mod, ← Nat.mod_add_mod, Nat.add_sub_cancel' hlt.le, Nat.mod_self]

theorem alignTo_lt {n : Nat} (hn : 0 < n) (a : Nat) : alignTo n a < a + n :=
  Nat.add_lt_add_left (Nat.mod_lt _ hn) _

theorem alignTo_mono {n a b : Nat} (hn : 0 < n) (h : a ≤ b) : alignTo n a ≤ alignTo n b := by
  by_contra hlt
  have h1 := alignTo_mod hn a
  have h2 := alignTo_mod hn b
  have h3 := alignTo_lt hn a
  have h4 := le_alignTo n b
  obtain ⟨x, hx⟩ := Nat.dvd_of_mod_eq_zero h1
  obtain ⟨y, hy⟩ := Nat.dvd_of_mod_eq_zero h2
  have hxy : y < x := by
    rw [hx, hy] at hlt
    exact Nat.lt_of_mul_lt_mul_left (not_le.mp hlt)
  have : n * y + n ≤ n * x := by
    rw [← Nat.mul_succ]
    exact Nat.mul_le_mul_left n hxy
  omega

/-- Multiples move with everything else. -/
theorem alignTo_add {n d : Nat} (h : n ∣ d) (a : Nat) : alignTo n (a + d) = alignTo n a + d := by
  rw [alignTo, alignTo, Nat.add_mod, Nat.mod_eq_zero_of_dvd h, Nat.add_zero, Nat.mod_mod]
  omega

/-! ## §2. Extents in order. -/

/-- The extents lie one behind the other between `c` and `e`. -/
def Stacked : Nat → List Extent → Nat → Prop
  | c, [], e => c ≤ e
  | c, x :: xs, e => c ≤ x.start ∧ Stacked (x.start + x.length) xs e

namespace Stacked

variable {c c' e e' : Nat} {x : Extent} {xs ys : List Extent}

theorem le (h : Stacked c xs e) : c ≤ e := by
  induction xs generalizing c with
  | nil => exact h
  | cons x xs ih => exact le_trans h.1 (le_trans (Nat.le_add_right _ _) (ih h.2))

theorem append (h : Stacked c xs e) (h' : Stacked e ys e') : Stacked c (xs ++ ys) e' := by
  induction xs generalizing c with
  | nil =>
      cases ys with
      | nil => exact le_trans h h'
      | cons y ys => exact ⟨le_trans h h'.1, h'.2⟩
  | cons x xs ih => exact ⟨h.1, ih h.2⟩

theorem mono (h : Stacked c xs e) (hc : c' ≤ c) (he : e ≤ e') : Stacked c' xs e' := by
  induction xs generalizing c c' with
  | nil => exact le_trans hc (le_trans h he)
  | cons x xs ih => exact ⟨le_trans hc h.1, ih h.2 le_rfl⟩

theorem bounds (h : Stacked c xs e) (hx : x ∈ xs) : c ≤ x.start ∧ x.start + x.length ≤ e := by
  induction xs generalizing c with
  | nil => cases hx
  | cons y ys ih =>
      rcases List.mem_cons.mp hx with rfl | hx
      · exact ⟨h.1, h.2.le⟩
      · obtain ⟨h1, h2⟩ := ih h.2 hx
        exact ⟨le_trans h.1 (le_trans (Nat.le_add_right _ _) h1), h2⟩

/-- Extents in order do not overlap. -/
theorem pairwise (h : Stacked c xs e) : xs.Pairwise Extent.Apart := by
  induction xs generalizing c with
  | nil => exact .nil
  | cons x xs ih =>
      refine .cons (fun y hy p hp => ?_) (ih h.2)
      have hle := (h.2.bounds hy).1
      obtain ⟨⟨-, h1⟩, ⟨h2, -⟩⟩ := hp
      omega

end Stacked

/-! ## §3. Placing. -/

/-- Something to be placed: so much is left free before it, then comes the next multiple
of `align`, if that is more than one. -/
structure Item where
  skip : Nat
  align : Nat
  size : Nat
  deriving DecidableEq

namespace Item

/-- Where the item goes when the cursor is at `c`. -/
def position (it : Item) (c : Nat) : Nat :=
  if 1 < it.align then alignTo it.align (c + it.skip) else c + it.skip

theorem le_position (it : Item) (c : Nat) : c + it.skip ≤ it.position c := by
  unfold position
  split
  · exact le_alignTo _ _
  · exact le_rfl

theorem position_mod (it : Item) (c : Nat) (h : 1 < it.align) : it.position c % it.align = 0 := by
  rw [position, if_pos h]
  exact alignTo_mod (by omega) _

theorem position_add (it : Item) {d : Nat} (h : it.align ∣ d ∨ it.align ≤ 1) (c : Nat) :
    it.position (c + d) = it.position c + d := by
  unfold position
  rw [show c + d + it.skip = c + it.skip + d by omega]
  split
  · next hbig => exact alignTo_add (h.resolve_right (by omega)) _
  · rfl

end Item

/-- Where the items go. -/
def place : Nat → List Item → List Extent
  | _, [] => []
  | c, it :: its => ⟨it.position c, it.size⟩ :: place (it.position c + it.size) its

/-- Where the cursor is behind the items. -/
def placedEnd : Nat → List Item → Nat
  | c, [] => c
  | c, it :: its => placedEnd (it.position c + it.size) its

theorem le_placedEnd (c : Nat) (its : List Item) : c ≤ placedEnd c its := by
  induction its generalizing c with
  | nil => exact le_rfl
  | cons it its ih =>
      have := it.le_position c
      exact le_trans (by omega) (ih _)

theorem place_stacked (c : Nat) (its : List Item) : Stacked c (place c its) (placedEnd c its) := by
  induction its generalizing c with
  | nil => exact le_rfl
  | cons it its ih =>
      have := it.le_position c
      exact ⟨by simp only; omega, ih _⟩

/-- The greatest end, counted from `l` on, is the end of what was placed last. -/
theorem foldl_max_place (c l : Nat) (its : List Item) :
    (place c its).foldl (fun l x => max l (x.start + x.length)) l
      = if its = [] then l else max l (placedEnd c its) := by
  induction its generalizing c l with
  | nil => rfl
  | cons it its ih =>
      have hle := le_placedEnd (it.position c + it.size) its
      rw [place, List.foldl_cons, ih, if_neg (List.cons_ne_nil _ _), placedEnd]
      split
      · next h => rw [h, placedEnd]
      · rw [max_assoc, max_eq_right hle]

end Metta.Machine
