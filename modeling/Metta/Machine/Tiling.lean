/-
  Metta.Machine.Tiling — extents that tile an interval of addresses.

  A tiling of `[lo, hi)` assigns lengths to some addresses so that the
  extents `[a, a + len a)` are pairwise apart and leave no gap.  It is
  stated pointwise (every extent has a neighbour on either side), which is
  the form that survives cutting one extent in two or joining two of them;
  `Tiles.exists_walk` turns it back into the list met by walking from `lo`.

    • `Tiles.split`/`Tiles.merge` — the two ways a tiling changes,
    • `Tiles.exists_walk` — the walk reaches `hi` and meets every extent,
    • `Walk.sum_eq` — the lengths along a walk add up to its distance.
-/
import Mathlib.Tactic

namespace Metta.Machine

/-! ## §1. Tilings. -/

/-- The extents given by `len` tile `[lo, hi)`. -/
structure Tiles (lo hi : Nat) (len : Nat → Option Nat) : Prop where
  first : ∃ n, len lo = some n
  pos : ∀ {a n}, len a = some n → 0 < n
  bound : ∀ {a n}, len a = some n → lo ≤ a ∧ a + n ≤ hi
  succ : ∀ {a n}, len a = some n → a + n = hi ∨ ∃ m, len (a + n) = some m
  apart : ∀ {a n c m}, len a = some n → len c = some m → a < c → a + n ≤ c
  pred : ∀ {a n}, len a = some n → a = lo ∨ ∃ p m, len p = some m ∧ p + m = a

variable {lo hi : Nat} {len len' : Nat → Option Nat}

/-- Two extents are the same or apart. -/
theorem Tiles.disjoint (t : Tiles lo hi len) {a n c m : Nat} (ha : len a = some n)
    (hc : len c = some m) : a = c ∨ a + n ≤ c ∨ c + m ≤ a := by
  rcases lt_trichotomy a c with h | h | h
  · exact .inr (.inl (t.apart ha hc h))
  · exact .inl h
  · exact .inr (.inr (t.apart hc ha h))

/-- **Cutting an extent**: `a` keeps its first `k` addresses and the rest
becomes an extent of its own. -/
theorem Tiles.split (t : Tiles lo hi len) {a n k : Nat} (ha : len a = some n)
    (hk : 0 < k) (hkn : k < n)
    (h : ∀ x, len' x = if x = a then some k else if x = a + k then some (n - k) else len x) :
    Tiles lo hi len' := by
  -- no old extent starts strictly inside the one that is cut
  have hnone : ∀ m, len (a + k) ≠ some m := by
    intro m hm
    have := t.disjoint ha hm
    have := t.pos hm
    omega
  constructor <;> simp only [h] <;> clear h
  case first => have := t.first; grind
  case pos => have := @t.pos; grind
  case bound => have := @t.bound; grind
  case succ => have := @t.succ; grind
  case apart => have := @t.apart; grind
  case pred => have := @t.pred; grind

/-- **Joining two extents**: `p` grows over its right neighbour `a`. -/
theorem Tiles.merge (t : Tiles lo hi len) {p m a n : Nat} (hp : len p = some m)
    (ha : len a = some n) (hpa : p + m = a)
    (h : ∀ x, len' x = if x = a then none else if x = p then some (m + n) else len x) :
    Tiles lo hi len' := by
  -- the left neighbour of `a` is `p` and nothing else
  have huniq : ∀ q k, len q = some k → q + k = a → q = p := by
    intro q k hq hqa
    have := t.disjoint hp hq
    have := t.pos hp
    have := t.pos hq
    omega
  have hm := t.pos hp
  have hn := t.pos ha
  have hlo := (t.bound hp).1
  constructor <;> simp only [h] <;> clear h
  case first => have := t.first; grind
  case pos => have := @t.pos; grind
  case bound => have := @t.bound; grind
  case succ =>
    intro x k hx
    have hnext := t.succ ha
    split_ifs at hx with hxa hxp
    · cases hx
      rw [hxp, show p + (m + n) = a + n by omega]
      grind
    · have := t.succ hx
      grind
  case apart => have := @t.apart; grind
  case pred => have := @t.pred; grind

/-! ## §2. Walking a tiling. -/

/-- `as` are the extents met by walking from `a` to `e`. -/
def Walk (len : Nat → Option Nat) : Nat → List Nat → Nat → Prop
  | a, [], e => a = e
  | a, c :: cs, e => c = a ∧ ∃ n, len a = some n ∧ Walk len (a + n) cs e

/-- From any extent on, the walk reaches the end and meets every extent that
starts no earlier. -/
theorem Tiles.exists_walk_from (t : Tiles lo hi len) :
    ∀ (d a : Nat), hi - a ≤ d → (a = hi ∨ ∃ n, len a = some n) →
      ∃ as, Walk len a as hi ∧ (∀ c ∈ as, a ≤ c ∧ ∃ n, len c = some n) ∧
        (∀ c n, len c = some n → a ≤ c → c ∈ as) ∧ as.Nodup := by
  -- by induction on a bound of what is left to the end
  intro d
  induction d with
  | zero =>
      intro a hd ha
      rcases ha with rfl | ⟨n, hn⟩
      · refine ⟨[], rfl, by simp, ?_, List.nodup_nil⟩
        intro c n hc hac
        have := t.bound hc
        have := t.pos hc
        omega
      · have := t.bound hn
        have := t.pos hn
        omega
  | succ d ih =>
      intro a hd ha
      rcases ha with rfl | ⟨n, hn⟩
      · refine ⟨[], rfl, by simp, ?_, List.nodup_nil⟩
        intro c n hc hac
        have := t.bound hc
        have := t.pos hc
        omega
      · have hpos := t.pos hn
        have hbound := t.bound hn
        -- the next tile begins where this one ends
        obtain ⟨as, hwalk, hmem, hall, hnd⟩ := ih (a + n) (by omega) (t.succ hn)
        refine ⟨a :: as, ⟨rfl, n, hn, hwalk⟩, ?_, ?_, ?_⟩
        · intro c hc
          rcases List.mem_cons.mp hc with rfl | hc
          · exact ⟨le_refl _, n, hn⟩
          · obtain ⟨hle, hn'⟩ := hmem c hc
            exact ⟨by omega, hn'⟩
        · intro c m hc hac
          rcases t.disjoint hn hc with rfl | h | h
          · exact List.mem_cons_self
          · exact List.mem_cons_of_mem _ (hall c m hc h)
          · have := t.pos hc
            omega
        · refine List.nodup_cons.mpr ⟨fun hin => ?_, hnd⟩
          have := (hmem a hin).1
          omega

/-- **The walk of a tiling**: it runs from `lo` to `hi` through every extent,
each once. -/
theorem Tiles.exists_walk (t : Tiles lo hi len) :
    ∃ as, Walk len lo as hi ∧ as.Nodup ∧ ∀ c, c ∈ as ↔ ∃ n, len c = some n := by
  obtain ⟨as, hwalk, hmem, hall, hnd⟩ :=
    t.exists_walk_from (hi - lo) lo (le_refl _) (.inr t.first)
  refine ⟨as, hwalk, hnd, fun c => ⟨fun hc => (hmem c hc).2, ?_⟩⟩
  rintro ⟨n, hn⟩
  exact hall c n hn (t.bound hn).1

/-- The lengths along a walk add up to the distance walked. -/
theorem Walk.sum_eq {a e : Nat} {as : List Nat} (h : Walk len a as e) :
    a + (as.map fun c => (len c).getD 0).sum = e := by
  induction as generalizing a with
  | nil => simpa [Walk] using h
  | cons c cs ih =>
      obtain ⟨rfl, n, hn, hw⟩ := h
      rw [List.map_cons, List.sum_cons, hn, Option.getD_some, ← Nat.add_assoc]
      exact ih hw

end Metta.Machine
