/-
  Metta.Machine.UnorderedMap — `std::unordered_map` by what can be seen of it.

  A map is its entries, no key twice; buckets and hashes are not seen.
  `insert` keeps the value of a key that is there and tells whether it
  inserted.

    • `find`, `insert`, `erase`, `assign`, `size` — the operations,
    • `find_insert`, `find_erase`, `find_assign` — what is found afterwards,
    • `size_assign_of_some`, `size_assign_of_none`, `size_assign_le` — how many entries
      there are.
-/
import Mathlib.Tactic

namespace Metta.Machine

universe u v

/-- A map: its entries, no key twice. -/
structure UnorderedMap (K : Type u) (V : Type v) where
  entries : List (K × V)
  nodup : (entries.map Prod.fst).Nodup

namespace UnorderedMap

variable {K : Type u} {V : Type v} [DecidableEq K]

/-- The map with no entries. -/
def empty : UnorderedMap K V := ⟨[], List.nodup_nil⟩

/-- The value of a key. -/
def find (m : UnorderedMap K V) (k : K) : Option V :=
  (m.entries.find? fun e => decide (e.1 = k)).map Prod.snd

/-- A key that has no value is not among the keys. -/
theorem not_mem_of_find {m : UnorderedMap K V} {k : K} (h : m.find k = none) :
    k ∉ m.entries.map Prod.fst := by
  rw [find, Option.map_eq_none_iff, List.find?_eq_none] at h
  intro hmem
  obtain ⟨e, he, rfl⟩ := List.mem_map.mp hmem
  exact h e he (decide_eq_true rfl)

/-- A new entry is put in only if the key is not there, and it is told whether it was. -/
def insert (m : UnorderedMap K V) (k : K) (v : V) : UnorderedMap K V × Bool :=
  match h : m.find k with
  | some _ => (m, false)
  | none => (⟨(k, v) :: m.entries, List.nodup_cons.mpr ⟨not_mem_of_find h, m.nodup⟩⟩, true)

/-- The entry of a key is taken out. -/
def erase (m : UnorderedMap K V) (k : K) : UnorderedMap K V where
  entries := m.entries.filter fun e => decide (e.1 ≠ k)
  nodup := m.nodup.sublist (List.filter_sublist.map _)

/-- `map[k] = v`: what the key had is replaced. -/
def assign (m : UnorderedMap K V) (k : K) (v : V) : UnorderedMap K V := ((m.erase k).insert k v).1

/-- The number of entries. -/
def size (m : UnorderedMap K V) : Nat := m.entries.length

@[simp] theorem find_empty (k : K) : (empty : UnorderedMap K V).find k = none := rfl

omit [DecidableEq K] in
@[simp] theorem size_empty : (empty : UnorderedMap K V).size = 0 := rfl

theorem insert_of_some {m : UnorderedMap K V} {k : K} {w : V} (h : m.find k = some w) (v : V) :
    m.insert k v = (m, false) := by
  unfold insert
  split
  · rfl
  · next hnone => rw [h] at hnone; cases hnone

theorem insert_of_none {m : UnorderedMap K V} {k : K} (h : m.find k = none) (v : V) :
    m.insert k v
      = (⟨(k, v) :: m.entries, List.nodup_cons.mpr ⟨not_mem_of_find h, m.nodup⟩⟩, true) := by
  unfold insert
  split
  · next w hsome => rw [h] at hsome; cases hsome
  · rfl

/-- An insertion happens exactly when the key is not there. -/
@[simp] theorem insert_snd (m : UnorderedMap K V) (k : K) (v : V) :
    (m.insert k v).2 = (m.find k).isNone := by
  cases h : m.find k with
  | none => rw [insert_of_none h]; rfl
  | some w => rw [insert_of_some h]; rfl

/-- The value that a key had stays. -/
theorem find_insert (m : UnorderedMap K V) (k : K) (v : V) (k' : K) :
    (m.insert k v).1.find k' = if k = k' then some ((m.find k).getD v) else m.find k' := by
  cases h : m.find k with
  | none =>
      rw [insert_of_none h, find, List.find?_cons]
      by_cases hk : k = k'
      · simp [hk]
      · simp only [hk, decide_false, if_false]
        rfl
  | some w =>
      rw [insert_of_some h]
      by_cases hk : k = k'
      · rw [if_pos hk, ← hk, h, Option.getD_some]
      · rw [if_neg hk]

theorem find_erase (m : UnorderedMap K V) (k k' : K) :
    (m.erase k).find k' = if k = k' then none else m.find k' := by
  obtain ⟨entries, hnodup⟩ := m
  simp only [erase, find]
  clear hnodup
  induction entries with
  | nil => simp
  | cons e es ih =>
      by_cases he : e.1 = k
      · rw [List.filter_cons_of_neg (by simp [he]), ih]
        by_cases hk : k = k'
        · rw [if_pos hk, if_pos hk]
        · rw [if_neg hk, if_neg hk, List.find?_cons_of_neg (by simp [he, hk])]
      · rw [List.filter_cons_of_pos (by simp [he])]
        by_cases hk : e.1 = k'
        · have hne : k ≠ k' := fun h => he (hk.trans h.symm)
          simp [hk, hne]
        · rw [List.find?_cons_of_neg (by simp [hk]), ih, List.find?_cons_of_neg (by simp [hk])]

theorem find_assign (m : UnorderedMap K V) (k : K) (v : V) (k' : K) :
    (m.assign k v).find k' = if k = k' then some v else m.find k' := by
  rw [assign, find_insert, find_erase, find_erase, if_pos rfl, Option.getD_none]
  by_cases hk : k = k'
  · rw [if_pos hk, if_pos hk]
  · rw [if_neg hk, if_neg hk, if_neg hk]

theorem size_erase_of_some {m : UnorderedMap K V} {k : K} {w : V} (h : m.find k = some w) :
    (m.erase k).size + 1 = m.size := by
  obtain ⟨entries, hnodup⟩ := m
  simp only [erase, find, size] at h ⊢
  induction entries with
  | nil => simp at h
  | cons e es ih =>
      obtain ⟨he, hes⟩ := List.nodup_cons.mp hnodup
      by_cases hk : e.1 = k
      · have hall : es.filter (fun e => decide (e.1 ≠ k)) = es := by
          rw [List.filter_eq_self]
          intro e' he'
          have hne : e'.1 ≠ e.1 := fun heq => he (heq ▸ List.mem_map_of_mem he')
          simpa [← hk] using hne
        rw [List.filter_cons_of_neg (by simp [hk]), hall, List.length_cons]
      · rw [List.find?_cons_of_neg (by simp [hk])] at h
        rw [List.filter_cons_of_pos (by simp [hk]), List.length_cons, List.length_cons, ih hes h]

/-- A key that is there gets another value. -/
theorem size_assign_of_some {m : UnorderedMap K V} {k : K} {w : V} (h : m.find k = some w)
    (v : V) : (m.assign k v).size = m.size := by
  have hnone : (m.erase k).find k = none := by rw [find_erase, if_pos rfl]
  rw [assign, insert_of_none hnone, ← size_erase_of_some h]
  rfl

/-- A key that is not there is put in. -/
theorem size_assign_of_none {m : UnorderedMap K V} {k : K} (h : m.find k = none) (v : V) :
    (m.assign k v).size = m.size + 1 := by
  have hnone : (m.erase k).find k = none := by rw [find_erase, if_pos rfl]
  have hall : (m.erase k).entries = m.entries := by
    show m.entries.filter (fun e => decide (e.1 ≠ k)) = m.entries
    rw [List.filter_eq_self]
    intro e he
    exact decide_eq_true fun heq => not_mem_of_find h (heq ▸ List.mem_map_of_mem he)
  rw [assign, insert_of_none hnone, size, List.length_cons, hall]
  rfl

theorem size_assign_le (m : UnorderedMap K V) (k : K) (v : V) :
    (m.assign k v).size ≤ m.size + 1 := by
  have hnone : (m.erase k).find k = none := by rw [find_erase, if_pos rfl]
  rw [assign, insert_of_none hnone]
  exact Nat.succ_le_succ (List.length_filter_le _ _)

end UnorderedMap

end Metta.Machine
