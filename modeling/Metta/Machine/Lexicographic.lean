/-
  Metta.Machine.Lexicographic — comparing strings by the first place where they differ.

  A comparison takes the differences of the elements one after the other and stops at the first
  one that is not zero.  What its sign says is the lexicographic order exactly when the
  difference at that place says which of the two elements is the smaller one.

    • `firstDifference` — the comparison, `firstDifference_eq_zero_iff`,
    • `Tells` — the sign of a number says how two things are ordered, `Tells.swap`, `Tells.trans`,
    • `compareBy` — strings of two lengths, `tells_compareBy_iff`,
    • `tells_firstDifference_iff` — strings of one length.
-/
import Mathlib.Tactic

namespace Metta.Machine

universe u

variable {α : Type u}

/-- The first difference that is not zero. -/
def firstDifference (d : α → α → Int) : List α → List α → Int
  | a :: l, b :: r => if d a b ≠ 0 then d a b else firstDifference d l r
  | _, _ => 0

/-- `P` holds of the first two elements that differ, if there are such elements. -/
def AtFirst (P : α → α → Prop) : List α → List α → Prop
  | a :: l, b :: r => (a ≠ b → P a b) ∧ (a = b → AtFirst P l r)
  | _, _ => True

/-- Negative for smaller and positive for greater. -/
structure Tells {β : Type u} [LT β] (x : Int) (a b : β) : Prop where
  lt : x < 0 ↔ a < b
  gt : 0 < x ↔ b < a

/-! ## §1. What the sign says. -/

namespace Tells

variable {β : Type u} [LT β] {x y z : Int} {a b c : β}

theorem swap (h : Tells x a b) (h' : Tells y b a) : x < 0 ↔ 0 < y := by
  rw [h.lt, h'.gt]

theorem trans [Trans (α := β) (β := β) (γ := β) (· < ·) (· < ·) (· < ·)] (hab : Tells x a b)
    (hbc : Tells y b c) (hac : Tells z a c) (hx : x < 0) (hy : y < 0) : z < 0 := by
  have h : a < c := Trans.trans (hab.lt.mp hx) (hbc.lt.mp hy)
  exact hac.lt.mpr h

theorem congr {γ : Type u} [LT γ] {a' b' : γ} (h1 : a < b ↔ a' < b') (h2 : b < a ↔ b' < a') :
    Tells x a b ↔ Tells x a' b' := by
  constructor
  · intro h
    exact ⟨h.lt.trans h1, h.gt.trans h2⟩
  · intro h
    exact ⟨h.lt.trans h1.symm, h.gt.trans h2.symm⟩

end Tells

theorem AtFirst.congr {P Q : α → α → Prop} (h : ∀ a b, a ≠ b → (P a b ↔ Q a b)) (l r : List α) :
    AtFirst P l r ↔ AtFirst Q l r := by
  induction l generalizing r with
  | nil => exact Iff.rfl
  | cons a l ih =>
      cases r with
      | nil => exact Iff.rfl
      | cons b r => exact and_congr (imp_congr_right (h a b)) (imp_congr_right fun _ => ih r)

/-- An element is not smaller than itself, so the first one that differs decides. -/
theorem cons_lt_cons_self [LT α] [Std.Irrefl (α := α) (· < ·)] (a : α) (l r : List α) :
    a :: l < a :: r ↔ l < r := by
  rw [List.cons_lt_cons_iff]
  constructor
  · intro h
    cases h with
    | inl hlt => exact absurd hlt (Std.Irrefl.irrefl a)
    | inr h => exact h.2
  · intro h
    exact .inr ⟨rfl, h⟩

theorem cons_lt_cons_of_ne [LT α] {a b : α} (hab : a ≠ b) (l r : List α) :
    a :: l < b :: r ↔ a < b := by
  rw [List.cons_lt_cons_iff]
  constructor
  · intro h
    cases h with
    | inl hlt => exact hlt
    | inr h => exact absurd h.1 hab
  · intro h
    exact .inl h

/-! ## §2. Strings of two lengths. -/

/-- The difference of the lengths decides where one string is a beginning of the other. -/
def compareBy (d : α → α → Int) (l r : List α) : Int :=
  if firstDifference d l r ≠ 0 then firstDifference d l r else (l.length : Int) - r.length

variable {d : α → α → Int}

theorem compareBy_cons_self (hd : ∀ a b, d a b = 0 ↔ a = b) (a : α) (l r : List α) :
    compareBy d (a :: l) (a :: r) = compareBy d l r := by
  unfold compareBy
  have hfirst : firstDifference d (a :: l) (a :: r) = firstDifference d l r := by
    rw [firstDifference, if_neg (not_not_intro ((hd a a).mpr rfl))]
  rw [hfirst, List.length_cons, List.length_cons]
  congr 1
  omega

theorem compareBy_cons_of_ne (hd : ∀ a b, d a b = 0 ↔ a = b) {a b : α} (hab : a ≠ b)
    (l r : List α) : compareBy d (a :: l) (b :: r) = d a b := by
  have hne : d a b ≠ 0 := fun h => hab ((hd a b).mp h)
  have hfirst : firstDifference d (a :: l) (b :: r) = d a b := by
    rw [firstDifference, if_pos hne]
  unfold compareBy
  rw [hfirst, if_pos hne]

theorem tells_compareBy_iff [LT α] [Std.Irrefl (α := α) (· < ·)] (hd : ∀ a b, d a b = 0 ↔ a = b)
    (l r : List α) :
    Tells (compareBy d l r) l r ↔ AtFirst (fun a b => Tells (d a b) a b) l r := by
  classical
  induction l generalizing r with
  | nil =>
      -- the shorter string is the smaller one
      apply iff_of_true _ trivial
      cases r with
      | nil => exact ⟨by simp [compareBy, firstDifference], by simp [compareBy, firstDifference]⟩
      | cons b r =>
          have hneg : compareBy d [] (b :: r) < 0 := by
            simp only [compareBy, firstDifference, List.length_nil, List.length_cons]
            omega
          exact ⟨iff_of_true hneg (List.nil_lt_cons b r),
            iff_of_false (by omega) (List.not_lt_nil _)⟩
  | cons a l ih =>
      cases r with
      | nil =>
          apply iff_of_true _ trivial
          have hpos : 0 < compareBy d (a :: l) [] := by
            simp only [compareBy, firstDifference, List.length_nil, List.length_cons]
            omega
          exact ⟨iff_of_false (by omega) (List.not_lt_nil _),
            iff_of_true hpos (List.nil_lt_cons a l)⟩
      | cons b r =>
          by_cases hab : a = b
          · subst hab
            rw [compareBy_cons_self hd, Tells.congr (cons_lt_cons_self a l r)
              (cons_lt_cons_self a r l), ih r]
            exact ⟨fun h => ⟨fun hne => absurd rfl hne, fun _ => h⟩, fun h => h.2 rfl⟩
          · rw [compareBy_cons_of_ne hd hab, Tells.congr (cons_lt_cons_of_ne hab l r)
              (cons_lt_cons_of_ne (Ne.symm hab) r l)]
            exact ⟨fun h => ⟨fun _ => h, fun heq => absurd heq hab⟩, fun h => h.1 hab⟩

/-! ## §3. Strings of one length. -/

theorem firstDifference_eq_zero_iff (hd : ∀ a b, d a b = 0 ↔ a = b) {l r : List α}
    (hlen : l.length = r.length) : firstDifference d l r = 0 ↔ l = r := by
  induction l generalizing r with
  | nil =>
      cases r with
      | nil => exact iff_of_true rfl rfl
      | cons b r => cases hlen
  | cons a l ih =>
      cases r with
      | nil => cases hlen
      | cons b r =>
          unfold firstDifference
          by_cases h0 : d a b = 0
          · have hab : a = b := (hd a b).mp h0
            rw [if_neg (not_not_intro h0), ih (Nat.succ.inj hlen), hab]
            exact ⟨fun h => h ▸ rfl, fun h => List.tail_eq_of_cons_eq h⟩
          · rw [if_pos h0]
            exact iff_of_false h0 fun h => h0 ((hd a b).mpr (List.head_eq_of_cons_eq h))

theorem tells_firstDifference_iff [LT α] [Std.Irrefl (α := α) (· < ·)]
    (hd : ∀ a b, d a b = 0 ↔ a = b) {l r : List α} (hlen : l.length = r.length) :
    Tells (firstDifference d l r) l r ↔ AtFirst (fun a b => Tells (d a b) a b) l r := by
  have hby : compareBy d l r = firstDifference d l r := by
    unfold compareBy
    by_cases h0 : firstDifference d l r = 0
    · rw [if_neg (not_not_intro h0), h0]
      omega
    · exact if_pos h0
  rw [← hby]
  exact tells_compareBy_iff hd l r

end Metta.Machine
