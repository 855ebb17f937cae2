/-
  Metta.Machine.Records — records laid out one after the other.

  Each record starts with its size, so a reader goes from one to the next by
  adding sizes.  What is at an address is left open: `At a r` says that the
  record `r` is at `a`, and `sizeAt a` is the size that is stored there.

    • `Laid` — records from one address to another,
    • `scan` — the search that every walker makes, `scan_spec`,
    • `gather` — an iterator run to its end, `gather_spec`,
    • `visit` — the addresses a walker comes by, `visit_spec`.
-/
import Mathlib.Tactic

namespace Metta.Machine

universe u

variable {ρ : Type u} {size : ρ → Nat} {At At' : Nat → ρ → Prop}

/-! ## §1. Records in a row. -/

/-- The records `rs` are laid out from `a` to `e`. -/
def Laid (size : ρ → Nat) (At : Nat → ρ → Prop) : Nat → List ρ → Nat → Prop
  | a, [], e => a = e
  | a, r :: rs, e => At a r ∧ Laid size At (a + size r) rs e

theorem Laid.le {a e : Nat} {rs : List ρ} (h : Laid size At a rs e) : a ≤ e := by
  induction rs generalizing a with
  | nil => exact le_of_eq h
  | cons r rs ih => exact le_trans (Nat.le_add_right _ _) (ih h.2)

/-- The length of the row is the sum of the sizes. -/
theorem Laid.end_eq {a e : Nat} {rs : List ρ} (h : Laid size At a rs e) :
    e = a + (rs.map size).sum := by
  induction rs generalizing a with
  | nil => exact h.symm
  | cons r rs ih => rw [ih h.2, List.map_cons, List.sum_cons, Nat.add_assoc]

theorem laid_append {a e : Nat} {rs rs' : List ρ} :
    Laid size At a (rs ++ rs') e ↔ ∃ b, Laid size At a rs b ∧ Laid size At b rs' e := by
  induction rs generalizing a with
  | nil => exact ⟨fun h => ⟨a, rfl, h⟩, fun ⟨b, hb, h⟩ => by cases hb; exact h⟩
  | cons r rs ih =>
      simp only [List.cons_append, Laid, ih]
      exact ⟨fun ⟨h, b, h1, h2⟩ => ⟨b, ⟨h, h1⟩, h2⟩, fun ⟨b, ⟨h, h1⟩, h2⟩ => ⟨h, b, h1, h2⟩⟩

theorem Laid.snoc {a e : Nat} {rs : List ρ} {r : ρ} (h : Laid size At a rs e) (hr : At e r) :
    Laid size At a (rs ++ [r]) (e + size r) :=
  laid_append.mpr ⟨e, h, hr, rfl⟩

/-- A record that is in place stays so when nothing between `a` and `e` changes. -/
theorem Laid.congr {a e : Nat} {rs : List ρ} (h : Laid size At a rs e)
    (hsame : ∀ b r, a ≤ b → b + size r ≤ e → At b r → At' b r) : Laid size At' a rs e := by
  induction rs generalizing a with
  | nil => exact h
  | cons r rs ih =>
      refine ⟨hsame a r le_rfl h.2.le h.1, ih h.2 fun b r hb => hsame b r ?_⟩
      omega

/-! ## §2. Walking. -/

/-- From `a` on, the first record before `limit` that is a `hit`. -/
def scan (sizeAt : Nat → Nat) (limit : Nat) (hit : Nat → Bool) : Nat → Nat → Option (Option Nat)
  | 0, _ => none
  | n + 1, a =>
      if a < limit then
        if hit a then some (some a) else scan sizeAt limit hit n (a + sizeAt a)
      else some none

/-- An iterator run to its end: the records it stops at. -/
def gather (sizeAt : Nat → Nat) (limit : Nat) (hit : Nat → Bool) (fuel : Nat) :
    Nat → Option Nat → Option (List Nat)
  | 0, _ => none
  | _ + 1, none => some []
  | n + 1, some a =>
      (scan sizeAt limit hit fuel (a + sizeAt a)).bind fun it =>
        (gather sizeAt limit hit fuel n it).map (a :: ·)

/-- The addresses a walker comes by before `limit`, and where it stops. -/
def visit (next : Nat → Nat) (limit : Nat) : Nat → Nat → Option (List Nat × Nat)
  | 0, _ => none
  | n + 1, a =>
      if a < limit then (visit next limit n (next a)).map fun r => (a :: r.1, r.2)
      else some ([], a)

section Walking

variable {sizeAt : Nat → Nat} {limit : Nat} {hit : Nat → Bool} {p : ρ → Bool}

/-- **The search** finds the first record that `p` is true of, or there is none. -/
theorem scan_spec (hsize : ∀ a r, At a r → sizeAt a = size r) (hpos : ∀ r, 0 < size r)
    (hhit : ∀ a r, At a r → hit a = p r) {rs : List ρ} {a fuel : Nat}
    (h : Laid size At a rs limit) (hfuel : rs.length < fuel) :
    (scan sizeAt limit hit fuel a = some none ∧ rs.filter p = []) ∨
    ∃ b r rest, scan sizeAt limit hit fuel a = some (some b) ∧ At b r ∧
      rs.find? p = some r ∧ rs.filter p = r :: rest.filter p ∧ rest.length < rs.length ∧
      Laid size At (b + size r) rest limit := by
  induction rs generalizing a fuel with
  | nil =>
      obtain ⟨n, rfl⟩ : ∃ n, fuel = n + 1 := ⟨fuel - 1, by omega⟩
      have ha : ¬ a < limit := by rw [show a = limit from h]; exact lt_irrefl _
      exact .inl ⟨by rw [scan, if_neg ha], rfl⟩
  | cons r rs ih =>
      obtain ⟨n, rfl⟩ : ∃ n, fuel = n + 1 := ⟨fuel - 1, by simp at hfuel; omega⟩
      obtain ⟨hr, hrs⟩ := h
      have ha : a < limit := lt_of_lt_of_le (Nat.lt_add_of_pos_right (hpos r)) hrs.le
      rw [scan, if_pos ha, hhit a r hr]
      cases hp : p r with
      | true =>
          refine .inr ⟨a, r, rs, ?_, hr, ?_, ?_, by simp, hrs⟩
          · rw [if_pos rfl]
          · simp [hp]
          · simp [hp]
      | false =>
          have hlen : rs.length < n := by simpa using hfuel
          rw [if_neg (by decide), hsize a r hr]
          rcases ih hrs hlen with ⟨h1, h2⟩ | ⟨b, r', rest, h1, h2, h3, h4, h5, h6⟩
          · exact .inl ⟨h1, by simpa [hp] using h2⟩
          · refine .inr ⟨b, r', rest, h1, h2, ?_, ?_, ?_, h6⟩
            · simpa [hp] using h3
            · simpa [hp] using h4
            · exact lt_trans h5 (by simp)

/-- **An iterator** stops at exactly the records that `p` is true of, in order, and
comes to its end. -/
theorem gather_spec (hsize : ∀ a r, At a r → sizeAt a = size r) (hpos : ∀ r, 0 < size r)
    (hhit : ∀ a r, At a r → hit a = p r) {fuel : Nat} {rs : List ρ} {a n : Nat}
    (h : Laid size At a rs limit) (hfuel : rs.length < fuel) (hn : rs.length < n) :
    ∃ it as, scan sizeAt limit hit fuel a = some it ∧
      gather sizeAt limit hit fuel n it = some as ∧ List.Forall₂ At as (rs.filter p) := by
  induction n generalizing rs a with
  | zero => omega
  | succ n ih =>
      rcases scan_spec hsize hpos hhit h hfuel with
        ⟨h1, h2⟩ | ⟨b, r, rest, h1, h2, -, h4, h5, h6⟩
      · exact ⟨none, [], h1, rfl, by rw [h2]; exact .nil⟩
      · obtain ⟨it, as, h7, h8, h9⟩ := ih h6 (by omega) (by omega)
        refine ⟨some b, b :: as, h1, ?_, by rw [h4]; exact .cons h2 h9⟩
        rw [gather, hsize b r h2, h7, Option.bind_some, h8]
        rfl

/-- **A walk** comes by every record once, in order, and stops at the end of the row. -/
theorem visit_spec {next : Nat → Nat} (hpos : ∀ r, 0 < size r)
    (hnext : ∀ a r, At a r → a + size r ≤ limit → next a = a + size r) {rs : List ρ} {a fuel : Nat}
    (h : Laid size At a rs limit) (hfuel : rs.length < fuel) :
    ∃ as, visit next limit fuel a = some (as, limit) ∧ List.Forall₂ At as rs ∧
      as.Pairwise (· < ·) ∧ ∀ b ∈ as, a ≤ b := by
  induction rs generalizing a fuel with
  | nil =>
      obtain ⟨n, rfl⟩ : ∃ n, fuel = n + 1 := ⟨fuel - 1, by omega⟩
      obtain rfl : a = limit := h
      refine ⟨[], ?_, .nil, .nil, by simp⟩
      rw [visit, if_neg (lt_irrefl _)]
  | cons r rs ih =>
      obtain ⟨n, rfl⟩ : ∃ n, fuel = n + 1 := ⟨fuel - 1, by simp at hfuel; omega⟩
      obtain ⟨hr, hrs⟩ := h
      have hlt : a < a + size r := Nat.lt_add_of_pos_right (hpos r)
      obtain ⟨as, h1, h2, h3, h4⟩ := ih hrs (by simpa using hfuel)
      refine ⟨a :: as, ?_, .cons hr h2, List.pairwise_cons.mpr ⟨?_, h3⟩, ?_⟩
      · rw [visit, if_pos (lt_of_lt_of_le hlt hrs.le), hnext a r hr hrs.le, h1]
        rfl
      · exact fun b hb => lt_of_lt_of_le hlt (h4 b hb)
      · intro b hb
        rcases List.mem_cons.mp hb with rfl | hb
        · exact le_rfl
        · exact le_trans hlt.le (h4 b hb)

/-- The first stop that is a hit is at the first record that `p` is true of. -/
theorem find_of_forall₂ {as : List Nat} {rs : List ρ} (h : List.Forall₂ At as rs)
    (hhit : ∀ a r, At a r → hit a = p r) :
    (as.find? hit = none ∧ rs.find? p = none) ∨
    ∃ a r, as.find? hit = some a ∧ rs.find? p = some r ∧ At a r := by
  induction h with
  | nil => exact .inl ⟨rfl, rfl⟩
  | @cons a r as rs ha _ ih =>
      cases hp : p r with
      | true =>
          refine .inr ⟨a, r, ?_, ?_, ha⟩
          · rw [List.find?_cons_of_pos (by rw [hhit a r ha, hp])]
          · rw [List.find?_cons_of_pos hp]
      | false =>
          rw [List.find?_cons_of_neg (by rw [hhit a r ha, hp]; decide),
            List.find?_cons_of_neg (by rw [hp]; decide)]
          exact ih

variable {β : Type u} {g : ρ → Option β}

theorem findSome_eq_bind_find (rs : List ρ) :
    rs.findSome? g = (rs.find? fun r => (g r).isSome).bind g := by
  induction rs with
  | nil => rfl
  | cons r rs ih => cases hr : g r <;> simp [hr, ih]

/-- The search, when a record is wanted for what `g` makes of it. -/
theorem scan_findSome (hsize : ∀ a r, At a r → sizeAt a = size r) (hpos : ∀ r, 0 < size r)
    (hhit : ∀ a r, At a r → hit a = (g r).isSome) {rs : List ρ} {a fuel : Nat}
    (h : Laid size At a rs limit) (hfuel : rs.length < fuel) :
    (scan sizeAt limit hit fuel a = some none ∧ rs.findSome? g = none) ∨
    ∃ b r, scan sizeAt limit hit fuel a = some (some b) ∧ At b r ∧ rs.findSome? g = g r ∧
      (g r).isSome = true := by
  rw [findSome_eq_bind_find]
  rcases scan_spec hsize hpos hhit h hfuel with ⟨h1, h2⟩ | ⟨b, r, rest, h1, h2, h3, -⟩
  · refine .inl ⟨h1, ?_⟩
    rw [← List.head?_filter, h2]
    rfl
  · have hsome := List.find?_some h3
    refine .inr ⟨b, r, h1, h2, ?_, hsome⟩
    rw [h3]
    rfl

/-- What is read at each stop of an iterator is what `g` makes of the records. -/
theorem map_eq_filterMap {f : Nat → β} (hg : ∀ a r, At a r → p r = true → g r = some (f a))
    (hn : ∀ r, p r = false → g r = none) {rs : List ρ} {as : List Nat}
    (h : List.Forall₂ At as (rs.filter p)) : as.map f = rs.filterMap g := by
  induction rs generalizing as with
  | nil =>
      cases h
      rfl
  | cons r rs ih =>
      cases hp : p r with
      | true =>
          rw [List.filter_cons_of_pos hp] at h
          obtain _ | ⟨ha, has⟩ := h
          rw [List.map_cons, List.filterMap_cons_some (hg _ r ha hp), ih has]
      | false =>
          rw [List.filter_cons_of_neg (by simp [hp])] at h
          rw [List.filterMap_cons_none (hn r hp), ih h]

end Walking

end Metta.Machine
