/-
  Metta.HeapMod.Layout — what a heap is, apart from its bytes.

  A layout says which records the heap area is divided into, which of them
  are free, and which addresses each free list names.  `WF` is the part of
  the heap invariant that does not mention memory: the blocks tile the
  area, the lists hold exactly the free blocks, and a block on a list is
  large enough for it.

  Each operation of `heap_t` is first an operation on layouts, and every one
  of them keeps `WF`:

    • `take`    — a free block leaves its list and becomes allocated,
    • `split`   — the end of a free block becomes an allocated block,
    • `release` — an allocated block becomes free, at the front of a list,
    • `merge`   — a free block is absorbed by the free block before it,
    • `move`    — a free block changes lists.
-/
import Metta.Machine.Tiling
import Metta.HeapMod.Def

namespace Metta.HeapMod

open Metta.Machine

/-! ## §1. Layouts. -/

/-- A block: the payload size and list index its record holds, and whether
it is free. -/
structure Blk where
  size : Nat
  index : Nat
  free : Bool
  deriving Repr, DecidableEq

/-- The blocks by record address, and the records on each free list. -/
structure Layout where
  blk : Nat → Option Blk
  list : Nat → List Nat

/-- The extent of each block, record included. -/
def Layout.len (L : Layout) (a : Nat) : Option Nat := (L.blk a).map fun b => b.size + recSize

/-- **Well-formed layouts** of the area between the first record `lo` and the
end record `hi`. -/
structure WF (lo hi : Nat) (L : Layout) : Prop where
  tiles : Tiles lo hi L.len
  sizeMul : ∀ {a b}, L.blk a = some b → b.size % 4 = 0
  indexLt : ∀ {a b}, L.blk a = some b → b.index < count
  classLe : ∀ {a b}, L.blk a = some b → b.index < otherIndex →
    allSizes b.index ≤ b.size
  listed : ∀ {a i}, a ∈ L.list i ↔ ∃ b, L.blk a = some b ∧ b.free = true ∧ b.index = i
  nodup : ∀ i, (L.list i).Nodup

variable {lo hi : Nat} {L : Layout}

theorem Layout.len_of_blk {a : Nat} {b : Blk} (h : L.blk a = some b) :
    L.len a = some (b.size + 16) := by
  simp [len, h, recSize]

theorem Layout.blk_of_len {a n : Nat} (h : L.len a = some n) :
    ∃ b, L.blk a = some b ∧ b.size + 16 = n := by
  simpa [len, recSize] using h

namespace WF

theorem bound (w : WF lo hi L) {a b} (h : L.blk a = some b) :
    lo ≤ a ∧ a + 16 + b.size ≤ hi := by
  have := w.tiles.bound (Layout.len_of_blk h)
  omega

/-- Two records are the same, or a header and a payload apart. -/
theorem disjoint (w : WF lo hi L) {a b c d} (ha : L.blk a = some b)
    (hc : L.blk c = some d) : a = c ∨ a + 16 + b.size ≤ c ∨ c + 16 + d.size ≤ a := by
  have := w.tiles.disjoint (Layout.len_of_blk ha) (Layout.len_of_blk hc)
  omega

/-- The record after a block is the end record or a block again. -/
theorem succ (w : WF lo hi L) {a b} (h : L.blk a = some b) :
    a + 16 + b.size = hi ∨ ∃ c, L.blk (a + 16 + b.size) = some c := by
  rw [show a + 16 + b.size = a + (b.size + 16) by omega]
  rcases w.tiles.succ (Layout.len_of_blk h) with h' | ⟨n, hn⟩
  · exact .inl h'
  · obtain ⟨c, hc, -⟩ := Layout.blk_of_len hn
    exact .inr ⟨c, hc⟩

/-- Every block but the first has a block right before it. -/
theorem pred (w : WF lo hi L) {a b} (h : L.blk a = some b) :
    a = lo ∨ ∃ p d, L.blk p = some d ∧ p + 16 + d.size = a := by
  rcases w.tiles.pred (Layout.len_of_blk h) with h' | ⟨p, n, hn, hp⟩
  · exact .inl h'
  · obtain ⟨d, hd, rfl⟩ := Layout.blk_of_len hn
    exact .inr ⟨p, d, hd, by omega⟩

/-- A record is on at most one list. -/
theorem list_unique (w : WF lo hi L) {a i j} (ha : a ∈ L.list i) (ha' : a ∈ L.list j) :
    i = j := by
  obtain ⟨b, hb, -, rfl⟩ := w.listed.mp ha
  obtain ⟨c, hc, -, rfl⟩ := w.listed.mp ha'
  rw [hb] at hc
  cases hc
  rfl

end WF

/-! ## §2. Operations on layouts. -/

/-- The free block `a` of list `i` is taken, for requests of class `k`. -/
def Layout.take (L : Layout) (a : Nat) (b : Blk) (i k : Nat) : Layout where
  blk := Function.update L.blk a (some { b with index := k, free := false })
  list := Function.update L.list i ((L.list i).erase a)

/-- The last `n` payload bytes of the free block `a` become the allocated
block `c`. -/
def Layout.split (L : Layout) (a : Nat) (b : Blk) (c n k : Nat) : Layout where
  blk := Function.update (Function.update L.blk c (some ⟨n, k, false⟩)) a
    (some { b with size := b.size - n - recSize })
  list := L.list

/-- The allocated block `a` goes to the front of its list. -/
def Layout.release (L : Layout) (a : Nat) (b : Blk) : Layout where
  blk := Function.update L.blk a (some { b with free := true })
  list := Function.update L.list b.index (a :: L.list b.index)

/-- The free block `a` of list `i` is absorbed by the block `p` before it. -/
def Layout.merge (L : Layout) (p : Nat) (d : Blk) (a : Nat) (b : Blk) (i : Nat) : Layout where
  blk := Function.update (Function.update L.blk p
    (some { d with size := d.size + b.size + recSize })) a none
  list := Function.update L.list i ((L.list i).erase a)

/-- List `i` loses `a`, and the `OTHER_INDEX` list gets it in front. -/
def Layout.move (L : Layout) (a : Nat) (b : Blk) (i : Nat) : Layout where
  blk := Function.update L.blk a (some { b with index := otherIndex })
  list := Function.update (Function.update L.list i ((L.list i).erase a)) otherIndex
    (a :: (Function.update L.list i ((L.list i).erase a)) otherIndex)

/-! ## §3. The operations keep layouts well formed. -/

namespace WF

/-- An operation that keeps every block's size keeps the tiling. -/
theorem tiles_of_size_eq (w : WF lo hi L) {a : Nat} {b c : Blk} {L' : Layout}
    (hb : L.blk a = some b) (hL : L'.blk = Function.update L.blk a (some c))
    (hsize : c.size = b.size) : Tiles lo hi L'.len := by
  have hlen : L'.len = L.len := by
    funext x
    simp only [Layout.len, hL, Function.update_apply]
    split
    next hx => rw [hx, hb, Option.map_some, Option.map_some, hsize]
    next => rfl
  rw [hlen]
  exact w.tiles

theorem take (w : WF lo hi L) {a b i k} (hb : L.blk a = some b)
    (hi' : b.index = i) (hk : k < count) (hc : k < otherIndex → allSizes k ≤ b.size) :
    WF lo hi (L.take a b i k) where
  tiles := w.tiles_of_size_eq hb rfl rfl
  sizeMul := by have := @w.sizeMul; simp only [Layout.take, Function.update_apply]; grind
  indexLt := by have := @w.indexLt; simp only [Layout.take, Function.update_apply]; grind
  classLe := by have := @w.classLe; simp only [Layout.take, Function.update_apply]; grind
  listed := by
    have := @w.listed
    have := w.nodup
    simp only [Layout.take, Function.update_apply]
    grind [List.Nodup.mem_erase_iff]
  nodup := by
    have := w.nodup
    simp only [Layout.take, Function.update_apply]
    grind [List.Nodup.erase]

theorem split (w : WF lo hi L) {a b c n k} (hb : L.blk a = some b)
    (hc : c = a + b.size - n) (hn : n + minFrag ≤ b.size) (hm : n % 4 = 0)
    (hother : b.index = otherIndex) (hk : k < count)
    (hcl : k < otherIndex → allSizes k ≤ n) : WF lo hi (L.split a b c n k) := by
  simp only [minFrag, recSize, wordBytes] at hn
  -- the new record lies strictly inside the old payload
  have hnone : ∀ e, L.blk c ≠ some e := by
    intro e he
    have := w.disjoint hb he
    omega
  have hac : a ≠ c := by omega
  constructor
  case tiles =>
    refine w.tiles.split (k := b.size - n) (Layout.len_of_blk hb) (by omega) (by omega) ?_
    intro x
    simp only [Layout.len, Layout.split, Function.update_apply, recSize]
    grind
  case sizeMul => have := @w.sizeMul; simp only [Layout.split, Function.update_apply, recSize]; grind
  case indexLt => have := @w.indexLt; simp only [Layout.split, Function.update_apply]; grind
  case classLe => have := @w.classLe; simp only [Layout.split, Function.update_apply]; grind
  case listed => have := @w.listed; simp only [Layout.split, Function.update_apply]; grind
  case nodup => exact w.nodup

theorem release (w : WF lo hi L) {a b} (hb : L.blk a = some b) (hf : b.free = false) :
    WF lo hi (L.release a b) where
  tiles := w.tiles_of_size_eq hb rfl rfl
  sizeMul := by have := @w.sizeMul; simp only [Layout.release, Function.update_apply]; grind
  indexLt := by have := @w.indexLt; simp only [Layout.release, Function.update_apply]; grind
  classLe := by have := @w.classLe; simp only [Layout.release, Function.update_apply]; grind
  listed := by have := @w.listed; simp only [Layout.release, Function.update_apply]; grind
  nodup := by
    have := w.nodup
    have := @w.listed
    simp only [Layout.release, Function.update_apply]
    grind

theorem merge (w : WF lo hi L) {p d a b i} (hp : L.blk p = some d)
    (hb : L.blk a = some b) (hpa : p + 16 + d.size = a) (hbi : b.index = i) :
    WF lo hi (L.merge p d a b i) := by
  constructor
  case tiles =>
    refine w.tiles.merge (Layout.len_of_blk hp) (Layout.len_of_blk hb) (by omega) ?_
    intro x
    simp only [Layout.len, Layout.merge, Function.update_apply, recSize]
    grind
  case sizeMul => have := @w.sizeMul; simp only [Layout.merge, Function.update_apply, recSize]; grind
  case indexLt => have := @w.indexLt; simp only [Layout.merge, Function.update_apply]; grind
  case classLe => have := @w.classLe; simp only [Layout.merge, Function.update_apply]; grind
  case listed =>
    have := @w.listed
    have := w.nodup
    simp only [Layout.merge, Function.update_apply]
    grind [List.Nodup.mem_erase_iff]
  case nodup =>
    have := w.nodup
    simp only [Layout.merge, Function.update_apply]
    grind [List.Nodup.erase]

theorem move (w : WF lo hi L) {a b i} (hb : L.blk a = some b) (hf : b.free = true)
    (hbi : b.index = i) : WF lo hi (L.move a b i) where
  tiles := w.tiles_of_size_eq hb rfl rfl
  sizeMul := by have := @w.sizeMul; simp only [Layout.move, Function.update_apply]; grind
  indexLt := by
    have := @w.indexLt
    have : otherIndex < count := by decide
    simp only [Layout.move, Function.update_apply]
    grind
  classLe := by have := @w.classLe; simp only [Layout.move, Function.update_apply]; grind
  listed := by
    have := @w.listed
    have := w.nodup
    simp only [Layout.move, Function.update_apply]
    grind [List.Nodup.mem_erase_iff]
  nodup := by
    have := w.nodup
    have := @w.listed
    simp only [Layout.move, Function.update_apply]
    grind [List.Nodup.erase, List.Nodup.mem_erase_iff]

end WF

end Metta.HeapMod
