/-
  Metta.HeapMod.Run — a heap and its clients.

  A world is a heap with the allocations its clients hold.  The clients call
  `allocate` and `free` in any order, free only what they hold, and write
  any byte of what they hold; a run is any finite sequence of such calls
  that have returned.  `WorldInv` ties the live allocations to the allocated
  blocks of a layout, and every step of a run keeps it.

    • `init_inv`      — `init` builds a heap with one free block,
    • `step_inv`      — every call keeps the invariant,
    • `run_inv`       — so it holds in every world a run reaches,
    • `heap_wellformed_along_runs`, `client_guarantee_along_runs` — what the
      invariant says about the records, and about the clients' payloads.
-/
import Metta.HeapMod.Allocate

namespace Metta.HeapMod

open Metta.Machine

variable {lo hi : Nat} {h : Heap} {L : Layout}

/-! ## §1. `init`. -/

/-- The layout `init` makes: one free block on the `OTHER_INDEX` list. -/
def initLayout (r n : Nat) : Layout where
  blk := Function.update (fun _ => none) r (some ⟨n, otherIndex, true⟩)
  list := Function.update (fun _ => []) otherIndex [r]

theorem initLayout_blk {r n a : Nat} {b : Blk} (hb : (initLayout r n).blk a = some b) :
    a = r ∧ b = ⟨n, otherIndex, true⟩ := by
  simp only [initLayout, Function.update_apply] at hb
  split at hb
  next har => exact ⟨har, (Option.some.inj hb).symm⟩
  next => cases hb

theorem initLayout_wf {r n : Nat} (hn : n % 4 = 0) : WF r (r + 16 + n) (initLayout r n) := by
  have hlen : ∀ {a m}, (initLayout r n).len a = some m → a = r ∧ m = n + 16 := by
    intro a m ha
    obtain ⟨b, hb, rfl⟩ := Layout.blk_of_len ha
    obtain ⟨rfl, rfl⟩ := initLayout_blk hb
    exact ⟨rfl, rfl⟩
  have hself : (initLayout r n).blk r = some ⟨n, otherIndex, true⟩ := by
    simp only [initLayout, Function.update_self]
  refine ⟨⟨⟨n + 16, Layout.len_of_blk hself⟩, ?_, ?_, ?_, ?_, ?_⟩, ?_, ?_, ?_, ?_, ?_⟩
  · -- one block, so every clause is about that block
    intro a m ha
    have := hlen ha
    omega
  · intro a m ha
    have := hlen ha
    omega
  · intro a m ha
    have := hlen ha
    omega
  · intro a m c k ha hc hac
    have := hlen ha
    have := hlen hc
    omega
  · intro a m ha
    exact .inl (hlen ha).1
  · intro a b hb
    rw [(initLayout_blk hb).2]
    exact hn
  · intro a b hb
    rw [(initLayout_blk hb).2]
    show otherIndex < count
    decide
  · intro a b hb hlt
    rw [(initLayout_blk hb).2] at hlt
    exact absurd hlt (lt_irrefl _)
  · -- the list of other sizes has it, and no other list has any
    intro a i
    constructor
    · intro ha
      simp only [initLayout, Function.update_apply] at ha
      split at ha
      next hi =>
        rw [List.mem_singleton.mp ha]
        exact ⟨_, hself, rfl, hi.symm⟩
      next => cases ha
    · rintro ⟨b, hb, -, rfl⟩
      obtain ⟨rfl, rfl⟩ := initLayout_blk hb
      simp [initLayout]
  · intro i
    simp only [initLayout, Function.update_apply]
    split <;> simp

/-- The stores of `init` for an area of `n` free bytes after the first
record `r`. -/
def initHeap (mem : Memory) (self start end_ r n : Nat) : Heap :=
  let h : Heap :=
    { mem, self, blocks := fun _ => 0, nullMalloc := start
      startAddress := start, endAddress := end_ }
  let h := (((h.setPrev start heapMagic).setSize start 0).setIndex start
    0xffffffff).setHeap start self
  let h := (((h.setPrev r heapMagic).setSize r n).setIndex r otherIndex).setNext r 0
  let h := h.setBlocks otherIndex r
  ((h.setPrev (r + 16 + n) n).setSize (r + 16 + n) 0).setIndex (r + 16 + n) 0

/-- `init` succeeds on an area larger than the three records. -/
theorem init_eq (mem : Memory) (self : Nat) {start end_ : Nat} (hroom : start + 48 < end_)
    (htop : end_ < wordSize) :
    Heap.init mem self start end_
      = .ok (initHeap mem self start end_ (start + 16) (end_ - start - 48)) := by
  -- the sums and differences of the code do not wrap around
  have hr : add32 start recSize = start + 16 := add32_eq (by simp only [recSize]; omega)
  have hn : sub32 (sub32 end_ start) minHeapOverhead = end_ - start - 48 := by
    rw [sub32_eq (by omega) htop, sub32_eq (by simp only [minHeapOverhead, recSize]; omega)
      (by omega)]
    rfl
  set n := end_ - start - 48 with hnval
  have hend : sub32 end_ recSize = start + 16 + 16 + n := by
    rw [sub32_eq (by simp only [recSize]; omega) htop]
    simp only [recSize]
    omega
  unfold Heap.init
  simp only [hr, hn, hend]
  set h₀ : Heap := ((((((((⟨mem, self, fun _ => 0, start, start, end_⟩ : Heap).setPrev start
    heapMagic).setSize start 0).setIndex start 0xffffffff).setHeap start self).setPrev
    (start + 16) heapMagic).setSize (start + 16) n).setIndex (start + 16) otherIndex).setNext
    (start + 16) 0 with hh₀
  -- the size of the first record, and the block behind it, as the stores in between leave them
  have hsize : (h₀.setBlocks otherIndex (start + 16)).size (start + 16) = n := by
    change h₀.size (start + 16) = n
    rw [hh₀, Heap.setNext, Heap.size_store_ne (by omega), Heap.setIndex,
      Heap.size_store_ne (by omega), Heap.setSize, Heap.size_store_same (by omega)]
  have hnext : (h₀.setBlocks otherIndex (start + 16)).nextBlock (start + 16)
      = start + 16 + 16 + n := Heap.nextBlock_eq hsize (by omega)
  rw [hnext, hsize]
  set h₁ := (((h₀.setBlocks otherIndex (start + 16)).setPrev (start + 16 + 16 + n) n).setSize
    (start + 16 + 16 + n) 0).setIndex (start + 16 + 16 + n) 0 with hh₁
  have hprev : h₁.prev (start + 16 + 16 + n) = n := by
    rw [hh₁, Heap.setIndex, Heap.prev_store_ne (by omega), Heap.setSize,
      Heap.prev_store_ne (by omega), Heap.setPrev, Heap.prev_store_same (by omega)]
  have hback : h₁.prevBlock (start + 16 + 16 + n) = start + 16 := by
    have hsub : sub32 (start + 16 + 16 + n) recSize = start + 16 + n := by
      rw [sub32_eq (by simp only [recSize]; omega) (by omega)]
      simp only [recSize]
      omega
    rw [Heap.prevBlock, hprev, hsub, sub32_eq (by omega) (by omega)]
    omega
  rw [hback, if_neg (by simp), if_neg (by simp)]
  rfl

/-- **`init` establishes the invariant.** -/
theorem init_inv (mem : Memory) (self : Nat) {start end_ : Nat} (hroom : start + 48 < end_)
    (htop : end_ < wordSize) (hmul : (end_ - start) % 4 = 0) :
    Inv (start + 16) (end_ - 16)
      (initHeap mem self start end_ (start + 16) (end_ - start - 48))
      (initLayout (start + 16) (end_ - start - 48)) 0 := by
  set r := start + 16 with hr
  set n := end_ - start - 48 with hn
  have hhi : end_ - 16 = r + 16 + n := by omega
  rw [hhi]
  refine ⟨by omega, by omega, initLayout_wf (by omega), ?_⟩
  constructor
  case size =>
    intro a b hb
    obtain ⟨rfl, rfl⟩ := initLayout_blk hb
    -- the later stores do not touch the size
    simp only [initHeap, Heap.setPrev, Heap.setSize, Heap.setIndex]
    rw [Heap.size_store_ne (by omega), Heap.size_store_ne (by omega),
      Heap.size_store_ne (by omega)]
    change Heap.size (Heap.setNext _ _ _) r = n
    rw [Heap.setNext, Heap.size_store_ne (by omega), Heap.size_store_ne (by omega),
      Heap.size_store_same (by omega)]
  case index =>
    intro a b hb
    obtain ⟨rfl, rfl⟩ := initLayout_blk hb
    simp only [initHeap, Heap.setPrev, Heap.setSize, Heap.setIndex]
    rw [Heap.index_store_ne (by omega), Heap.index_store_ne (by omega),
      Heap.index_store_ne (by omega)]
    change Heap.index (Heap.setNext _ _ _) r = otherIndex
    rw [Heap.setNext, Heap.index_store_ne (by omega), Heap.index_store_same (by decide)]
  case tag =>
    intro a b hb _
    obtain ⟨rfl, rfl⟩ := initLayout_blk hb
    simp only [initHeap, Heap.setPrev, Heap.setSize, Heap.setIndex, if_true]
    rw [Heap.prev_store_ne (by omega), Heap.prev_store_ne (by omega),
      Heap.prev_store_same (by omega)]
  case first =>
    simp only [initHeap, Heap.setPrev, Heap.setSize, Heap.setIndex]
    rw [Heap.prev_store_ne (by omega), Heap.prev_store_ne (by omega),
      Heap.prev_store_ne (by omega)]
    change Heap.prev (Heap.setNext _ _ _) r = heapMagic
    rw [Heap.setNext, Heap.prev_store_ne (by omega), Heap.prev_store_ne (by omega),
      Heap.prev_store_ne (by omega), Heap.prev_store_same (by decide)]
  -- one list has the block, and the others are empty
  case chain =>
    intro i _
    simp only [initHeap, initLayout, Heap.setPrev, Heap.setSize, Heap.setIndex,
      Heap.store_blocks, Heap.setBlocks, Function.update_apply]
    split
    next =>
      refine ⟨rfl, by omega, ?_⟩
      change Heap.next _ r = 0
      rw [Heap.next_store_ne (by omega), Heap.next_store_ne (by omega),
        Heap.next_store_ne (by omega)]
      change Heap.next (Heap.setNext _ _ _) r = 0
      rw [Heap.setNext, Heap.next_store_same (by decide)]
    next => rfl

/-! ## §2. Worlds, calls and runs. -/

/-- A heap, and the pointers its clients hold with the sizes they asked for. -/
structure World where
  heap : Heap
  live : List (Nat × Nat)

/-- What a client can do. -/
inductive Call where
  | allocate (size : Nat)
  | free (p : Nat)
  /-- A client writes the byte at `a`. -/
  | write (a : Nat) (v : UInt8)
  deriving DecidableEq

/-- Clients pass 32-bit sizes, free what they hold (or a pointer that `free`
ignores), and write only into what they hold. -/
def Call.Allowed (w : World) : Call → Prop
  | .allocate size => size < wordSize
  | .free p => p = 0 ∨ p = w.heap.nullMalloc ∨ p ∈ w.live.map Prod.fst
  | .write a _ => ∃ e ∈ w.live, e.1 ≤ a ∧ a < e.1 + e.2

/-- The rounding of `BLOCK_ALIGN` does not wrap. -/
def Call.Fits : Call → Prop
  | .allocate size => size + wordBytes < wordSize
  | _ => True

instance (w : World) : (c : Call) → Decidable (c.Allowed w)
  | .allocate size => inferInstanceAs (Decidable (size < wordSize))
  | .free p => inferInstanceAs
      (Decidable (p = 0 ∨ p = w.heap.nullMalloc ∨ p ∈ w.live.map Prod.fst))
  | .write a _ => inferInstanceAs (Decidable (∃ e ∈ w.live, e.1 ≤ a ∧ a < e.1 + e.2))

/-- The effect of a call, with the iteration bound given to the loops. -/
def World.exec (bound : Nat) (w : World) : Call → Except Fault World
  | .allocate size => (w.heap.allocate bound size).map fun r =>
      ⟨r.2, if size = 0 ∨ r.1 = 0 then w.live else (r.1, size) :: w.live⟩
  | .free p => (w.heap.free p).map fun h => ⟨h, w.live.filter fun e => e.1 ≠ p⟩
  | .write a v => .ok ⟨{ w.heap with mem := w.heap.mem.poke a v }, w.live⟩

/-- A call that returned: some bound was enough for its loops. -/
def Step (w : World) (c : Call) (w' : World) : Prop :=
  c.Allowed w ∧ ∃ bound, w.exec bound c = .ok w'

/-- The worlds reached from `w` by calls that have returned. -/
inductive Run (w : World) : List Call → World → Prop where
  | nil : Run w [] w
  | snoc {cs w' c w''} : Run w cs w' → Step w' c w'' → Run w (cs ++ [c]) w''

/-- `w` starts as `init` leaves it, over an area larger than the three
header records. -/
structure Starts (start end_ : Nat) (w : World) : Prop where
  room : start + minHeapOverhead < end_
  top : end_ < wordSize
  mul : (end_ - start) % 4 = 0
  init : ∃ mem self, Heap.init mem self start end_ = .ok w.heap
  live : w.live = []

/-! ## §3. The invariant of a world. -/

/-- The live allocations of `w` are the allocated blocks of `L`. -/
structure WorldInv (start end_ : Nat) (w : World) (L : Layout) : Prop where
  inv : Inv (start + 16) (end_ - 16) w.heap L 0
  nullMalloc : w.heap.nullMalloc = start
  startAddress : w.heap.startAddress = start
  endAddress : w.heap.endAddress = end_
  block : ∀ {e}, e ∈ w.live → ∃ a b, e.1 = a + 16 ∧ L.blk a = some b ∧ b.free = false ∧
    e.2 ≤ b.size
  held : ∀ {a b}, L.blk a = some b → b.free = false → a + 16 ∈ w.live.map Prod.fst
  nodup : (w.live.map Prod.fst).Nodup

variable {start end_ : Nat} {w w' : World} {c : Call}

theorem Starts.worldInv (s : Starts start end_ w) : ∃ L, WorldInv start end_ w L := by
  obtain ⟨mem, self, hinit⟩ := s.init
  have hroom : start + 48 < end_ := s.room
  rw [init_eq mem self hroom s.top] at hinit
  have hheap := (Except.ok.inj hinit).symm
  refine ⟨_, hheap ▸ init_inv mem self hroom s.top s.mul, ?_, ?_, ?_, ?_, ?_, ?_⟩
  · rw [hheap]; rfl
  · rw [hheap]; rfl
  · rw [hheap]; rfl
  · intro e he
    rw [s.live] at he
    cases he
  · intro a b hb hf
    rw [(initLayout_blk hb).2] at hf
    cases hf
  · rw [s.live]
    exact List.nodup_nil

/-- A frame keeps what `init` recorded in the heap. -/
theorem WorldInv.of_frame {L L' : Layout} {h' : Heap} {live : List (Nat × Nat)}
    (W : WorldInv start end_ w L) (f : Frame L w.heap h')
    (inv : Inv (start + 16) (end_ - 16) h' L' 0)
    (block : ∀ {e}, e ∈ live → ∃ a b, e.1 = a + 16 ∧ L'.blk a = some b ∧ b.free = false ∧
      e.2 ≤ b.size)
    (held : ∀ {a b}, L'.blk a = some b → b.free = false → a + 16 ∈ live.map Prod.fst)
    (nodup : (live.map Prod.fst).Nodup) : WorldInv start end_ ⟨h', live⟩ L' :=
  ⟨inv, f.nullMalloc.trans W.nullMalloc, f.startAddress.trans W.startAddress,
    f.endAddress.trans W.endAddress, block, held, nodup⟩

/-- `allocate` that fits: nothing, or a new live allocation. -/
theorem WorldInv.allocate {bound size : Nat} (W : WorldInv start end_ w L)
    (hfit : size + wordBytes < wordSize)
    (hs : w.exec bound (.allocate size) = .ok w') :
    ∃ L', WorldInv start end_ w' L' ∧ Frame L w.heap w'.heap := by
  simp only [World.exec] at hs
  cases hcall : w.heap.allocate bound size with
  | error f => rw [hcall] at hs; cases hs
  | ok r =>
    rw [hcall] at hs
    have hw' : w' = ⟨r.2, if size = 0 ∨ r.1 = 0 then w.live else (r.1, size) :: w.live⟩ :=
      (Except.ok.inj hs).symm
    rw [hw']
    by_cases hzero : size = 0
    · -- `allocate(0)` answers null_malloc and changes nothing
      have hr : r = (w.heap.nullMalloc, w.heap) := by
        simp only [Heap.allocate, hzero, if_true] at hcall
        exact (Except.ok.inj hcall).symm
      rw [if_pos (.inl hzero), hr]
      exact ⟨L, W, .refl L _⟩
    · rcases allocate_spec bound W.inv (by omega) hfit with
        hrun | ⟨h', L', hok, e⟩ | ⟨a, h', hok, b, L', e, hb, hf, hle, hwas⟩
      · -- the search does not return: no step was made
        rw [hrun] at hcall
        cases hcall
      · -- no block is large enough, and no allocation is new
        rw [hok] at hcall
        have hr := (Except.ok.inj hcall).symm
        rw [hr, if_pos (.inr rfl)]
        refine ⟨L', W.of_frame e.frame e.inv ?_ ?_ W.nodup, e.frame⟩
        · intro x hx
          obtain ⟨a, b, hxa, hb, hf, hle⟩ := W.block hx
          exact ⟨a, b, hxa, e.keep hb hf, hf, hle⟩
        · intro a b hb hf
          rcases e.fresh hb hf with hb' | h0
          · exact W.held hb' hf
          · exact absurd h0 (e.inv.ne_zero hb)
      · -- a block was found, which is one live allocation more
        rw [hok] at hcall
        have hr := (Except.ok.inj hcall).symm
        rw [hr, if_neg (by simp [hzero])]
        refine ⟨L', W.of_frame e.frame e.inv ?_ ?_ ?_, e.frame⟩
        · intro x hx
          rcases List.mem_cons.mp hx with rfl | hx
          · exact ⟨a, b, rfl, hb, hf, hle⟩
          · obtain ⟨c, d, hxc, hd, hdf, hdle⟩ := W.block hx
            exact ⟨c, d, hxc, e.keep hd hdf, hdf, hdle⟩
        · intro c d hd hdf
          rcases e.fresh hd hdf with hd' | rfl
          · exact List.mem_cons_of_mem _ (W.held hd' hdf)
          · exact List.mem_cons_self
        · -- the block handed out was not allocated, so its payload was not live
          refine List.nodup_cons.mpr ⟨fun hin => ?_, W.nodup⟩
          obtain ⟨x, hx, hxa⟩ := List.mem_map.mp hin
          obtain ⟨c, d, hxc, hd, hdf, -⟩ := W.block hx
          have hca : c = a := by
            simp only at hxa
            omega
          rw [hwas d (hca ▸ hd)] at hdf
          cases hdf

/-- The live allocation a client frees, as a block. -/
theorem WorldInv.block_of_mem (W : WorldInv start end_ w L) {p : Nat}
    (hp : p ∈ w.live.map Prod.fst) :
    ∃ a b, p = a + 16 ∧ L.blk a = some b ∧ b.free = false := by
  obtain ⟨e, he, rfl⟩ := List.mem_map.mp hp
  obtain ⟨a, b, hea, hb, hf, -⟩ := W.block he
  exact ⟨a, b, hea, hb, hf⟩

/-- A live pointer is not one that `free` ignores. -/
theorem WorldInv.not_ignored (W : WorldInv start end_ w L) {a : Nat} {b : Blk}
    (hb : L.blk a = some b) : a + 16 ≠ w.heap.nullMalloc := by
  have := W.inv.wf.bound hb
  rw [W.nullMalloc]
  omega

theorem WorldInv.free {bound p : Nat} (W : WorldInv start end_ w L)
    (hallow : Call.Allowed w (.free p)) (hs : w.exec bound (.free p) = .ok w') :
    ∃ L', WorldInv start end_ w' L' ∧ Frame L w.heap w'.heap := by
  simp only [World.exec] at hs
  by_cases hnull : p = 0 ∨ p = w.heap.nullMalloc
  · -- `free` ignores these pointers, and no client holds them
    rw [Heap.free, if_pos hnull] at hs
    have hw' := (Except.ok.inj hs).symm
    have hfilter : w.live.filter (fun e => e.1 ≠ p) = w.live := by
      refine List.filter_eq_self.mpr fun e he => ?_
      obtain ⟨a, b, hea, hb, -, -⟩ := W.block he
      have hne := W.not_ignored hb
      rw [← hea] at hne
      have hep : e.1 ≠ p := by
        rintro rfl
        rcases hnull with h0 | h0
        · omega
        · exact hne h0
      simpa using hep
    rw [hw', hfilter]
    exact ⟨L, W, .refl L _⟩
  · -- the pointer is a client's, so that it has a block
    have hlive : p ∈ w.live.map Prod.fst := by
      simp only [Call.Allowed] at hallow
      tauto
    obtain ⟨a, b, rfl, hb, hf⟩ := W.block_of_mem hlive
    rw [W.inv.free_eq hb (W.not_ignored hb)] at hs
    have hw' := (Except.ok.inj hs).symm
    subst hw'
    obtain ⟨hinv, hframe⟩ := W.inv.release hb hf
    refine ⟨L.release a b, W.of_frame hframe hinv ?_ ?_ ?_, hframe⟩
    · -- what is live still: other blocks than this one
      intro x hx
      obtain ⟨hx, hxp⟩ := List.mem_filter.mp hx
      obtain ⟨c, d, hxc, hd, hdf, hdle⟩ := W.block hx
      have hca : c ≠ a := by
        rintro rfl
        simp [hxc] at hxp
      refine ⟨c, d, hxc, ?_, hdf, hdle⟩
      simp only [Layout.release, Function.update_of_ne hca]
      exact hd
    · -- a block that is allocated still was so before
      intro c d hd hdf
      simp only [Layout.release, Function.update_apply] at hd
      split at hd
      next =>
        rw [← Option.some.inj hd] at hdf
        cases hdf
      next hca =>
        obtain ⟨x, hx, hxc⟩ := List.mem_map.mp (W.held hd hdf)
        refine List.mem_map.mpr ⟨x, List.mem_filter.mpr ⟨hx, ?_⟩, hxc⟩
        simpa [hxc] using hca
    · exact W.nodup.sublist (List.Sublist.map _ List.filter_sublist)

/-- A byte written inside a live payload is no word of any record. -/
theorem Inv.poke (I : Inv lo hi h L 0) {a x : Nat} {b : Blk} {v : UInt8}
    (hb : L.blk a = some b) (hx : a + 16 ≤ x) (hx' : x < a + 16 + b.size) :
    Inv lo hi { h with mem := h.mem.poke x v } L 0 := by
  have w := I.wf
  have hplace : ∀ {r}, (r = hi ∨ ∃ d, L.blk r = some d) → ∀ k, k ≤ 12 →
      (h.mem.poke x v).load32 (r + k) = h.mem.load32 (r + k) := by
    intro r hr k hk
    apply Memory.load32_poke_ne
    rcases hr with rfl | ⟨d, hd⟩
    · have := w.bound hb
      omega
    · have := w.disjoint hb hd
      omega
  refine ⟨I.pos, I.top, w, ?_⟩
  constructor
  case size => intro r d hd; exact (hplace (.inr ⟨d, hd⟩) 4 (by omega)).trans (I.rep.size hd)
  case index => intro r d hd; exact (hplace (.inr ⟨d, hd⟩) 8 (by omega)).trans (I.rep.index hd)
  case tag =>
    intro r d hd hne
    exact (hplace (w.succ hd) 0 (by omega)).trans (I.rep.tag hd hne)
  case first =>
    obtain ⟨n, hn⟩ := w.tiles.first
    obtain ⟨d, hd, -⟩ := Layout.blk_of_len hn
    exact (hplace (.inr ⟨d, hd⟩) 0 (by omega)).trans I.rep.first
  case chain =>
    intro i hi'
    refine (I.rep.chain i hi').frame fun r hr => ?_
    obtain ⟨d, hd, -, -⟩ := w.listed.mp hr
    exact hplace (.inr ⟨d, hd⟩) 12 (by omega)

theorem WorldInv.write {bound a : Nat} {v : UInt8} (W : WorldInv start end_ w L)
    (hallow : Call.Allowed w (.write a v)) (hs : w.exec bound (.write a v) = .ok w') :
    WorldInv start end_ w' L := by
  simp only [World.exec] at hs
  have hw' := (Except.ok.inj hs).symm
  subst hw'
  obtain ⟨e, he, hle, hlt⟩ := hallow
  obtain ⟨c, d, hec, hd, -, hsize⟩ := W.block he
  exact ⟨W.inv.poke hd (by omega) (by omega), W.nullMalloc, W.startAddress, W.endAddress,
    W.block, W.held, W.nodup⟩

/-- **Every call keeps the invariant**, and the heap's own stores stay out of
the payloads that were live before the call. -/
theorem step_inv (W : WorldInv start end_ w L) (hfit : c.Fits) (hs : Step w c w') :
    ∃ L', WorldInv start end_ w' L' ∧
      ∃ new, w'.heap.mem.stores = new ++ w.heap.mem.stores ∧ ∀ s ∈ new, Avoids L s := by
  obtain ⟨hallow, bound, hexec⟩ := hs
  cases c with
  | allocate size =>
      obtain ⟨L', W', f⟩ := W.allocate hfit hexec
      obtain ⟨new, hnew, hav, -⟩ := f.stored
      exact ⟨L', W', new, hnew, hav⟩
  | free p =>
      obtain ⟨L', W', f⟩ := W.free hallow hexec
      obtain ⟨new, hnew, hav, -⟩ := f.stored
      exact ⟨L', W', new, hnew, hav⟩
  | write a v =>
      refine ⟨L, W.write hallow hexec, [], ?_, by simp⟩
      rw [← Except.ok.inj hexec]
      rfl

/-- **The invariant along runs.** -/
theorem run_inv {w₀ : World} {cs : List Call} (hstart : Starts start end_ w₀)
    (hrun : Run w₀ cs w) (hfits : ∀ c ∈ cs, c.Fits) : ∃ L, WorldInv start end_ w L := by
  induction hrun with
  | nil => exact hstart.worldInv
  | snoc hrun hs ih =>
      obtain ⟨L, W⟩ := ih fun c hc => hfits c (List.mem_append_left _ hc)
      obtain ⟨L', W', -⟩ := step_inv W (hfits _ (by simp)) hs
      exact ⟨L', W'⟩

/-! ## §4. What a run leaves in memory. -/

/-- `rs` are the records met by walking `next_block` from `r` to the record
`e`; no step of the walk wraps around the address space. -/
def WalksTo (h : Heap) : Nat → List Nat → Nat → Prop
  | r, [], e => r = e
  | r, c :: rs, e => c = r ∧ h.nextBlock r = r + recSize + h.size r ∧
      WalksTo h (h.nextBlock r) rs e

/-- **A well-formed heap**, in terms of its words: `live` are the payloads
of the allocated blocks, `recs` the records from the first one to the end
record, and `lists i` the records reached from `blocks[i]`. -/
structure WellFormed (h : Heap) (live : List Nat) (recs : List Nat) (lists : Nat → List Nat) :
    Prop where
  /-- The blocks tile the area from the first record to the end record. -/
  walk : WalksTo h (h.startAddress + recSize) recs (h.endAddress - recSize)
  once : recs.Nodup
  /-- Every live payload belongs to a record. -/
  owned : ∀ p ∈ live, ∃ r ∈ recs, p = r + recSize
  /-- The first record follows null_malloc. -/
  first : h.prev (h.startAddress + recSize) = heapMagic
  /-- The record after each block has its boundary tag. -/
  tag : ∀ r ∈ recs, h.prev (h.nextBlock r) = if r + recSize ∈ live then heapMagic else h.size r
  /-- The tag of a free block is never taken for the magic. -/
  untagged : ∀ r ∈ recs, r + recSize ∉ live → h.size r ≠ heapMagic
  /-- `lists i` is what following `next` from `blocks[i]` to `NULL` meets. -/
  chain : ∀ i < count, Seg h (h.blocks i) (lists i) 0
  nodup : ∀ i < count, (lists i).Nodup
  /-- A record is on list `i` exactly when it is free and its index is `i`. -/
  listed : ∀ i < count, ∀ r, r ∈ lists i ↔ r ∈ recs ∧ r + recSize ∉ live ∧ h.index r = i
  /-- The index of every record names a list. -/
  index : ∀ r ∈ recs, h.index r < count
  /-- The blocks of a size class are large enough for it. -/
  sized : ∀ i < otherIndex, ∀ r ∈ lists i, allSizes i ≤ h.size r
  /-- Blocks and records take up the whole area. -/
  total : (recs.map fun r => h.size r + recSize).sum = h.endAddress - h.startAddress - 2 * recSize

theorem walksTo_of_walk (I : Inv lo hi h L 0) {rs : List Nat} {r : Nat}
    (hw : Walk L.len r rs hi) : WalksTo h r rs hi := by
  induction rs generalizing r with
  | nil => exact hw
  | cons c rs ih =>
      obtain ⟨rfl, n, hn, hw⟩ := hw
      obtain ⟨b, hb, rfl⟩ := Layout.blk_of_len hn
      have hbound := I.wf.bound hb
      have htop := I.top
      have hnext : h.nextBlock c = c + 16 + b.size :=
        Heap.nextBlock_eq (I.rep.size hb) (by omega)
      refine ⟨rfl, by rw [hnext, I.rep.size hb, recSize], ?_⟩
      rw [hnext, show c + 16 + b.size = c + (b.size + 16) by omega]
      exact ih hw

/-- The invariant, read off the words of the heap. -/
theorem WorldInv.wellFormed (W : WorldInv start end_ w L) (hroom : start + 48 < end_) :
    ∃ recs, WellFormed w.heap (w.live.map Prod.fst) recs L.list := by
  obtain ⟨recs, hwalk, hnd, hmem⟩ := W.inv.wf.tiles.exists_walk
  have hblk : ∀ {r}, r ∈ recs ↔ ∃ b, L.blk r = some b := by
    intro r
    rw [hmem]
    constructor
    · rintro ⟨n, hn⟩
      obtain ⟨b, hb, -⟩ := Layout.blk_of_len hn
      exact ⟨b, hb⟩
    · rintro ⟨b, hb⟩
      exact ⟨_, Layout.len_of_blk hb⟩
  -- a record is live exactly when its block is allocated
  have hlive : ∀ {r b}, L.blk r = some b →
      (r + recSize ∈ w.live.map Prod.fst ↔ b.free = false) := by
    intro r b hb
    constructor
    · intro hr
      obtain ⟨a, d, hra, hd, hdf⟩ := W.block_of_mem hr
      have har : r = a := by
        simp only [recSize] at hra
        omega
      rw [har, hd] at hb
      rw [← Option.some.inj hb]
      exact hdf
    · exact W.held hb
  have hnext : ∀ {r b}, L.blk r = some b → w.heap.nextBlock r = r + 16 + b.size := by
    intro r b hb
    have := W.inv.wf.bound hb
    have := W.inv.top
    exact Heap.nextBlock_eq (W.inv.rep.size hb) (by omega)
  refine ⟨recs, ?_⟩
  constructor
  case walk =>
    rw [W.startAddress, W.endAddress]
    exact walksTo_of_walk W.inv hwalk
  case once => exact hnd
  case owned =>
    intro p hp
    obtain ⟨a, b, hpa, hb, -⟩ := W.block_of_mem hp
    exact ⟨a, hblk.mpr ⟨b, hb⟩, hpa⟩
  case first =>
    rw [W.startAddress]
    exact W.inv.rep.first
  case tag =>
    intro r hr
    obtain ⟨b, hb⟩ := hblk.mp hr
    rw [hnext hb, W.inv.rep.tag hb (W.inv.ne_zero hb), W.inv.rep.size hb]
    simp only [hlive hb]
    cases b.free <;> rfl
  case untagged =>
    intro r hr _ hmagic
    obtain ⟨b, hb⟩ := hblk.mp hr
    have hmul := W.inv.wf.sizeMul hb
    rw [W.inv.rep.size hb] at hmagic
    rw [hmagic, heapMagic] at hmul
    omega
  case chain => exact W.inv.rep.chain
  case nodup => exact fun i _ => W.inv.wf.nodup i
  case listed =>
    intro i _ r
    rw [W.inv.wf.listed]
    constructor
    · rintro ⟨b, hb, hf, rfl⟩
      refine ⟨hblk.mpr ⟨b, hb⟩, ?_, W.inv.rep.index hb⟩
      rw [hlive hb, hf]
      exact Bool.noConfusion
    · rintro ⟨hr, hnot, hidx⟩
      obtain ⟨b, hb⟩ := hblk.mp hr
      rw [hlive hb, Bool.not_eq_false] at hnot
      exact ⟨b, hb, hnot, by rw [← W.inv.rep.index hb]; exact hidx⟩
  case index =>
    intro r hr
    obtain ⟨b, hb⟩ := hblk.mp hr
    rw [W.inv.rep.index hb]
    exact W.inv.wf.indexLt hb
  case sized =>
    intro i hi' r hr
    obtain ⟨b, hb, -, rfl⟩ := W.inv.wf.listed.mp hr
    rw [W.inv.rep.size hb]
    exact W.inv.wf.classLe hb hi'
  case total =>
    have hsum := hwalk.sum_eq
    have hmap : (recs.map fun r => w.heap.size r + recSize)
        = recs.map fun r => (L.len r).getD 0 := by
      refine List.map_congr_left fun r hr => ?_
      obtain ⟨b, hb⟩ := hblk.mp hr
      rw [Layout.len_of_blk hb, W.inv.rep.size hb]
      rfl
    rw [hmap, W.startAddress, W.endAddress]
    simp only [recSize]
    omega

/-- **The heap stays well formed**: in every world reached by calls whose
sizes survive rounding, whatever the order of `allocate`, `free` and the
clients' own writes, and whether or not an `allocate` found room. -/
theorem heap_wellformed_along_runs {start end_ : Nat} {w₀ w : World} {cs : List Call}
    (hstart : Starts start end_ w₀) (hrun : Run w₀ cs w) (hfits : ∀ c ∈ cs, c.Fits) :
    w.heap.startAddress = start ∧ w.heap.endAddress = end_ ∧
      ∃ recs lists, WellFormed w.heap (w.live.map Prod.fst) recs lists := by
  obtain ⟨L, W⟩ := run_inv hstart hrun hfits
  obtain ⟨recs, hwf⟩ := W.wellFormed hstart.room
  exact ⟨W.startAddress, W.endAddress, recs, L.list, hwf⟩

/-- A fresh heap of 256 bytes at `0x1000`. -/
def smallWorld : World := ⟨initHeap ⟨fun _ => 0, []⟩ 0x800 0x1000 0x1100 0x1010 208, []⟩

theorem smallWorld_starts : Starts 0x1000 0x1100 smallWorld :=
  ⟨by decide, by decide, by decide, ⟨⟨fun _ => 0, []⟩, 0x800, init_eq _ _ (by decide) (by decide)⟩,
    rfl⟩

/-- The world after the call `c`, if it returns within eight iterations. -/
def World.after (w : World) (c : Call) : World :=
  match w.exec 8 c with
  | .ok w' => w'
  | .error _ => w

/-- Ten bytes are asked for, and given back. -/
theorem heap_wellformed_small_run :
    ∃ w, Run smallWorld [.allocate 10, .free 0x10e0] w ∧
      ∃ recs lists, WellFormed w.heap (w.live.map Prod.fst) recs lists := by
  have h₁ : Step smallWorld (.allocate 10) (smallWorld.after (.allocate 10)) :=
    ⟨by decide, 8, rfl⟩
  have h₂ : Step (smallWorld.after (.allocate 10)) (.free 0x10e0)
      ((smallWorld.after (.allocate 10)).after (.free 0x10e0)) :=
    ⟨by decide +kernel, 8, rfl⟩
  have hrun := (Run.nil.snoc h₁).snoc h₂
  have hfits : ∀ c ∈ [Call.allocate 10, Call.free 0x10e0], c.Fits := by
    simp [Call.Fits, wordBytes, wordSize]
  exact ⟨_, hrun, (heap_wellformed_along_runs smallWorld_starts hrun hfits).2.2⟩

/-! ## §5. What the clients rely on. -/

/-- The size of the payload at `p`, from the record before it. -/
def World.payload (w : World) (p : Nat) : Nat := w.heap.size (p - recSize)

/-- **What the clients of a heap hold**: payloads as large as they asked for,
inside the heap and apart from each other. -/
structure ClientsSafe (w : World) : Prop where
  room : ∀ e ∈ w.live, 0 < e.2 ∧ e.2 ≤ w.payload e.1
  inside : ∀ e ∈ w.live, w.heap.startAddress + 2 * recSize ≤ e.1 ∧
    e.1 + w.payload e.1 + recSize ≤ w.heap.endAddress
  apart : w.live.Pairwise fun e e' =>
    e.1 + w.payload e.1 ≤ e'.1 ∨ e'.1 + w.payload e'.1 ≤ e.1

/-- No store the heap made between `w` and `w'` covers a byte of the payload
at `p`. -/
def Untouched (w w' : World) (p : Nat) : Prop :=
  ∃ new, w'.heap.mem.stores = new ++ w.heap.mem.stores ∧
    ∀ s ∈ new, s + 4 ≤ p ∨ p + w.payload p ≤ s

theorem WorldInv.payload_eq (W : WorldInv start end_ w L) {a : Nat} {b : Blk}
    (hb : L.blk a = some b) : w.payload (a + 16) = b.size := by
  rw [World.payload, recSize, Nat.add_sub_cancel]
  exact W.inv.rep.size hb

/-- Every live allocation of a run was asked for with a positive size. -/
theorem run_live_pos {w₀ : World} {cs : List Call} (hlive : w₀.live = [])
    (hrun : Run w₀ cs w) : ∀ e ∈ w.live, 0 < e.2 := by
  induction hrun with
  | nil => intro e he; rw [hlive] at he; cases he
  | snoc hrun hs ih =>
      rename_i cs w c w'
      intro e he
      obtain ⟨-, bound, hexec⟩ := hs
      cases c with
      | allocate size =>
          simp only [World.exec] at hexec
          cases hcall : w.heap.allocate bound size with
          | error f => rw [hcall] at hexec; cases hexec
          | ok r =>
              rw [hcall] at hexec
              rw [← Except.ok.inj hexec] at he
              simp only at he
              split at he
              next => exact ih e he
              next hne =>
                rcases List.mem_cons.mp he with rfl | he
                · simp only
                  omega
                · exact ih e he
      | free p =>
          simp only [World.exec] at hexec
          cases hcall : w.heap.free p with
          | error f => rw [hcall] at hexec; cases hexec
          | ok h' =>
              rw [hcall] at hexec
              rw [← Except.ok.inj hexec] at he
              exact ih e (List.mem_filter.mp he).1
      | write a v =>
          rw [← Except.ok.inj hexec] at he
          exact ih e he

theorem WorldInv.clientsSafe (W : WorldInv start end_ w L) (hpos : ∀ e ∈ w.live, 0 < e.2) :
    ClientsSafe w := by
  refine ⟨fun e he => ⟨hpos e he, ?_⟩, fun e he => ?_, ?_⟩
  · obtain ⟨a, b, hea, hb, -, hle⟩ := W.block he
    rw [hea, W.payload_eq hb]
    exact hle
  · obtain ⟨a, b, hea, hb, -, -⟩ := W.block he
    have := W.inv.wf.bound hb
    rw [hea, W.payload_eq hb, W.startAddress, W.endAddress]
    simp only [recSize]
    omega
  · -- distinct pointers belong to distinct blocks
    have hne : w.live.Pairwise fun e e' => e.1 ≠ e'.1 := List.pairwise_map.mp W.nodup
    refine hne.imp_of_mem fun {e e'} he he' hee => ?_
    obtain ⟨a, b, hea, hb, -, -⟩ := W.block he
    obtain ⟨a', b', hea', hb', -, -⟩ := W.block he'
    rw [hea, hea', W.payload_eq hb, W.payload_eq hb']
    have := W.inv.wf.disjoint hb hb'
    omega

/-- The rounding that wraps: the index of size zero is far outside `blocks[]`. -/
theorem allocate_wraps (bound : Nat) {size : Nat} (h : Heap) (hlt : size < wordSize)
    (hwrap : ¬ size + wordBytes < wordSize) :
    h.allocate bound size = .error (.listIndex 0x1fffffff) := by
  simp only [wordBytes, wordSize] at hlt hwrap
  have hadd : add32 size wordBytes = size + 8 - 2 ^ 32 := by
    simp only [add32, wordBytes, wordSize]
    omega
  have hround : blockAlign size = 0 := by
    rw [blockAlign, hadd]
    refine (and_highMask (k := 3) ?_ (by decide)).trans ?_
    · simp only [wordSize]
      omega
    · omega
  unfold Heap.allocate
  rw [if_neg (by omega), hround]
  rfl

/-- **Index faults**: a call that a client may make uses a list outside
`blocks[]` exactly when its size does not survive rounding. -/
theorem WorldInv.no_listIndex_iff (W : WorldInv start end_ w L) (bound : Nat)
    (hallow : c.Allowed w) :
    (∀ i, w.exec bound c ≠ .error (.listIndex i)) ↔ c.Fits := by
  constructor
  · intro hnone
    cases c with
    | allocate size =>
        by_contra hwrap
        refine hnone 0x1fffffff ?_
        rw [World.exec, allocate_wraps bound w.heap hallow hwrap]
        rfl
    | free p => trivial
    | write a v => trivial
  · intro hfit i
    cases c with
    | allocate size =>
        simp only [World.exec]
        by_cases hzero : size = 0
        · rw [Heap.allocate, if_pos hzero]
          exact fun hh => by cases hh
        · rcases allocate_spec bound W.inv (by omega) hfit with
            hres | ⟨h', L', hres, -⟩ | ⟨a, h', hres, -⟩ <;>
          · rw [hres]
            exact fun hh => by cases hh
    | free p =>
        simp only [World.exec]
        by_cases hnull : p = 0 ∨ p = w.heap.nullMalloc
        · rw [Heap.free, if_pos hnull]
          exact fun hh => by cases hh
        · have hlive : p ∈ w.live.map Prod.fst := by
            simp only [Call.Allowed] at hallow
            tauto
          obtain ⟨a, b, rfl, hb, -⟩ := W.block_of_mem hlive
          rw [W.inv.free_eq hb (W.not_ignored hb)]
          exact fun hh => by cases hh
    | write a v => exact fun hh => by cases hh

/-- **What clients can rely on**: in every world reached by calls whose sizes
survive rounding the live payloads are as large as asked for, inside the
heap and apart; the next such call stores nothing into them; and a call
stays within `blocks[]` exactly when its size survives rounding. -/
theorem client_guarantee_along_runs {start end_ : Nat} {w₀ w : World} {cs : List Call}
    (hstart : Starts start end_ w₀) (hrun : Run w₀ cs w) (hfits : ∀ c ∈ cs, c.Fits) :
    ClientsSafe w ∧
      (∀ c w', c.Fits → Step w c w' → ∀ e ∈ w.live, Untouched w w' e.1) ∧
      ∀ c bound, c.Allowed w →
        ((∀ i, w.exec bound c ≠ .error (.listIndex i)) ↔ c.Fits) := by
  obtain ⟨L, W⟩ := run_inv hstart hrun hfits
  refine ⟨W.clientsSafe (run_live_pos hstart.live hrun), ?_,
    fun c bound hallow => W.no_listIndex_iff bound hallow⟩
  intro c w' hfit hs e he
  obtain ⟨-, -, new, hnew, havoid⟩ := step_inv W hfit hs
  obtain ⟨a, b, hea, hb, hf, -⟩ := W.block he
  refine ⟨new, hnew, fun s hs => ?_⟩
  have := havoid s hs a b hb hf
  rw [hea, W.payload_eq hb]
  exact this

theorem client_guarantee_small_run :
    ClientsSafe (smallWorld.after (.allocate 10)) ∧
      ∀ bound i, (smallWorld.after (.allocate 10)).exec bound (.free 0x10e0)
        ≠ .error (.listIndex i) := by
  have h₁ : Step smallWorld (.allocate 10) (smallWorld.after (.allocate 10)) :=
    ⟨by decide, 8, rfl⟩
  have hfits : ∀ c ∈ [Call.allocate 10], c.Fits := by
    simp [Call.Fits, wordBytes, wordSize]
  have hall := client_guarantee_along_runs smallWorld_starts (Run.nil.snoc h₁) hfits
  exact ⟨hall.1, fun bound => (hall.2.2 _ bound (by decide +kernel)).mpr trivial⟩

/-- A size one word below `2 ^ 32` makes `allocate` use `blocks[0x1fffffff]`. -/
theorem allocate_listIndex_out_of_range :
    Starts 0x1000 0x1100 smallWorld ∧ Call.Allowed smallWorld (.allocate 0xfffffff8) ∧
      (∀ bound, smallWorld.exec bound (.allocate 0xfffffff8)
        = .error (.listIndex 0x1fffffff)) ∧ ¬ 0x1fffffff < count := by
  refine ⟨smallWorld_starts, by decide, fun bound => ?_, by decide⟩
  rw [World.exec, allocate_wraps bound _ (by decide) (by decide)]
  rfl

end Metta.HeapMod
