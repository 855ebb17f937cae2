/-
  Metta.Machine.Split — names with separators.

    • `split` — what is before the first separator and what is after it,
    • `split_append`, `split_of_not_mem` — names put together are taken apart,
    • `append_cons_inj` — a text is cut at its first separator in one way,
    • `pieces`, `pieces_append` — a text in which every piece ends with a separator.
-/
import Mathlib.Tactic

namespace Metta.Machine

/-- The separator of the components of names, '.'. -/
def dot : UInt8 := 46

variable {α : Type*} [DecidableEq α]

/-- What is before the first separator and what is after it; all of it and nothing, if there
is no separator. -/
def split (sep : α) (s : List α) : List α × List α :=
  (s.takeWhile (· ≠ sep), (s.dropWhile (· ≠ sep)).drop 1)

theorem split_append {sep : α} {a : List α} (h : sep ∉ a) (b : List α) :
    split sep (a ++ sep :: b) = (a, b) := by
  have hall : ∀ x ∈ a, decide (x ≠ sep) = true := fun x hx =>
    decide_eq_true fun heq => h (heq ▸ hx)
  rw [split, List.takeWhile_append_of_pos hall, List.dropWhile_append_of_pos hall]
  simp

theorem split_of_not_mem {sep : α} {a : List α} (h : sep ∉ a) : split sep a = (a, []) := by
  have hall : ∀ x ∈ a, decide (x ≠ sep) = true := fun x hx =>
    decide_eq_true fun heq => h (heq ▸ hx)
  rw [split, ← List.append_nil a, List.takeWhile_append_of_pos hall,
    List.dropWhile_append_of_pos hall]
  simp

/-- What is after a separator is shorter. -/
theorem length_split_lt {sep : α} {s : List α} (h : (split sep s).2 ≠ []) :
    (split sep s).2.length < s.length := by
  unfold split at h ⊢
  have hpos : 0 < (s.dropWhile (· ≠ sep)).length := by
    refine Nat.pos_of_ne_zero fun hzero => h ?_
    rw [List.length_eq_zero_iff.mp hzero]
    rfl
  have hle := (List.dropWhile_sublist (fun b => decide (b ≠ sep)) (l := s)).length_le
  show ((s.dropWhile (· ≠ sep)).drop 1).length < s.length
  rw [List.length_drop]
  omega

/-- The pieces of a text that separators end, and what is behind the last one, if anything. -/
def pieces (sep : α) : List α → List (List α)
  | [] => []
  | x :: s =>
      if x = sep then [] :: pieces sep s
      else
        match pieces sep s with
        | [] => [[x]]
        | p :: ps => (x :: p) :: ps

theorem pieces_append {sep : α} {a : List α} (h : sep ∉ a) (s : List α) :
    pieces sep (a ++ sep :: s) = a :: pieces sep s := by
  induction a with
  | nil => rw [List.nil_append, pieces, if_pos rfl]
  | cons x a ih =>
      rw [List.mem_cons, not_or] at h
      obtain ⟨hx, ha⟩ := h
      rw [List.cons_append, pieces, if_neg (Ne.symm hx), ih ha]

omit [DecidableEq α] in
/-- Two texts that begin with words and separators begin with the same ones. -/
theorem append_cons_inj {sep : α → Prop} {a b : List α} {x y : α} {r r' : List α}
    (ha : ∀ c ∈ a, ¬ sep c) (hb : ∀ c ∈ b, ¬ sep c) (hx : sep x) (hy : sep y)
    (h : a ++ x :: r = b ++ y :: r') : a = b ∧ x = y ∧ r = r' := by
  induction a generalizing b with
  | nil =>
      cases b with
      | nil =>
          rw [List.nil_append, List.nil_append, List.cons.injEq] at h
          exact ⟨rfl, h⟩
      | cons c b =>
          rw [List.nil_append, List.cons_append, List.cons.injEq] at h
          exact absurd (h.1 ▸ hx) (hb c (List.mem_cons_self ..))
  | cons d a ih =>
      cases b with
      | nil =>
          rw [List.nil_append, List.cons_append, List.cons.injEq] at h
          exact absurd (h.1 ▸ hy) (ha d (List.mem_cons_self ..))
      | cons c b =>
          rw [List.cons_append, List.cons_append, List.cons.injEq] at h
          obtain ⟨rfl, hrest⟩ := ih (fun c hc => ha c (List.mem_cons_of_mem _ hc))
            (fun c hc => hb c (List.mem_cons_of_mem _ hc)) h.2
          exact ⟨by rw [h.1], hrest⟩

end Metta.Machine
