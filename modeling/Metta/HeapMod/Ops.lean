/-
  Metta.HeapMod.Ops — every step of `heap_t` keeps the invariant.

  The code changes a heap in five ways, one per layout operation.  For each
  of them this file shows that the stores the code makes turn a heap that
  represents `L` into one that represents the changed layout, and that none
  of these stores falls into the payload of an allocated block (`Frame`).
-/
import Metta.HeapMod.Inv

namespace Metta.HeapMod

open Metta.Machine

variable {lo hi : Nat} {h : Heap} {L : Layout} {exc : Nat}

/-! ## §1. Stores that stay out of live payloads. -/

/-- A 32-bit store at `s` misses the payload of every allocated block. -/
def Avoids (L : Layout) (s : Nat) : Prop :=
  ∀ a b, L.blk a = some b → b.free = false → s + 4 ≤ a + 16 ∨ a + 16 + b.size ≤ s

/-- `h'` comes from `h` by stores outside the live payloads of `L`; the
members of `heap_t` that `init` sets stay as they are. -/
structure Frame (L : Layout) (h h' : Heap) : Prop where
  stored : Memory.Stored (Avoids L) h.mem h'.mem
  self : h'.self = h.self
  nullMalloc : h'.nullMalloc = h.nullMalloc
  startAddress : h'.startAddress = h.startAddress
  endAddress : h'.endAddress = h.endAddress

namespace Frame

theorem refl (L : Layout) (h : Heap) : Frame L h h :=
  ⟨.refl _ _, rfl, rfl, rfl, rfl⟩

theorem trans {h h' h'' : Heap} (f : Frame L h h') (f' : Frame L h' h'') : Frame L h h'' :=
  ⟨f.stored.trans f'.stored, f'.self.trans f.self, f'.nullMalloc.trans f.nullMalloc,
    f'.startAddress.trans f.startAddress, f'.endAddress.trans f.endAddress⟩

theorem store {h h' : Heap} (f : Frame L h h') {a : Nat} (v : Nat) (ha : Avoids L a) :
    Frame L h (h'.store a v) :=
  ⟨f.stored.store v ha, f.self, f.nullMalloc, f.startAddress, f.endAddress⟩

theorem setBlocks {h h' : Heap} (f : Frame L h h') (i v : Nat) :
    Frame L h (h'.setBlocks i v) :=
  ⟨f.stored, f.self, f.nullMalloc, f.startAddress, f.endAddress⟩

/-- A frame for more allocated blocks is a frame for fewer. -/
theorem mono {L L' : Layout} {h h' : Heap} (f : Frame L' h h')
    (hkeep : ∀ a b, L.blk a = some b → b.free = false → L'.blk a = some b) :
    Frame L h h' :=
  ⟨f.stored.mono fun _ hs a b hb hf => hs a b (hkeep a b hb hf) hf, f.self,
    f.nullMalloc, f.startAddress, f.endAddress⟩

end Frame

/-- The words of a record are outside every payload. -/
theorem WF.avoids_record (w : WF lo hi L) {a b} (hb : L.blk a = some b) {k : Nat}
    (hk : k ≤ 12) : Avoids L (a + k) := by
  intro c d hd _
  rcases w.disjoint hb hd with rfl | h | h <;> omega

/-- So are the words of the end record. -/
theorem WF.avoids_end (w : WF lo hi L) {k : Nat} : Avoids L (hi + k) := by
  intro c d hd _
  have := w.bound hd
  omega

/-- The record after a block is outside every payload. -/
theorem WF.avoids_succ (w : WF lo hi L) {a b} (hb : L.blk a = some b) {k : Nat}
    (hk : k ≤ 12) : Avoids L (a + 16 + b.size + k) := by
  rcases w.succ hb with h | ⟨c, hc⟩
  · rw [h]
    exact w.avoids_end
  · exact w.avoids_record hc hk

/-- The payload of a free block is outside every live payload. -/
theorem WF.avoids_free (w : WF lo hi L) {a b} (hb : L.blk a = some b)
    (hf : b.free = true) {s : Nat} (hs : a ≤ s) (hs' : s + 4 ≤ a + 16 + b.size) :
    Avoids L s := by
  intro c d hd hdf
  rcases w.disjoint hb hd with rfl | h | h
  · rw [hb] at hd
    cases hd
    rw [hf] at hdf
    cases hdf
  · omega
  · omega

/-- The slot before a list record is a list head or the link of a block. -/
theorem Inv.frame_write (I : Inv lo hi h L exc) {h' : Heap} {i : Nat} {pre suf : List Nat}
    (f : Frame L h h') (hl : L.list i = pre ++ suf) (v : Nat) :
    Frame L h (h'.write (slotOf i pre) v) := by
  rcases List.eq_nil_or_concat pre with rfl | ⟨pre, x, rfl⟩
  · exact f.setBlocks i v
  · rw [List.concat_eq_append] at hl ⊢
    rw [slotOf_concat]
    have hxmem : x ∈ L.list i := by rw [hl]; simp
    obtain ⟨b, hb, -, -⟩ := I.wf.listed.mp hxmem
    exact f.store v (I.wf.avoids_record hb (le_refl 12))

/-! ## §2. Words after a store. -/

namespace Heap

variable {a v r : Nat}

theorem prev_store_ne (hne : a + 4 ≤ r ∨ r + 4 ≤ a) : (h.store a v).prev r = h.prev r :=
  Memory.load32_store32_ne _ _ _ _ hne

theorem size_store_ne (hne : a + 4 ≤ r + 4 ∨ r + 8 ≤ a) : (h.store a v).size r = h.size r :=
  Memory.load32_store32_ne _ _ _ _ (by omega)

theorem index_store_ne (hne : a + 4 ≤ r + 8 ∨ r + 12 ≤ a) :
    (h.store a v).index r = h.index r :=
  Memory.load32_store32_ne _ _ _ _ (by omega)

theorem next_store_ne (hne : a + 4 ≤ r + 12 ∨ r + 16 ≤ a) :
    (h.store a v).next r = h.next r :=
  Memory.load32_store32_ne _ _ _ _ (by omega)

theorem prev_store_same (hv : v < wordSize) : (h.store r v).prev r = v :=
  Memory.load32_store32_same _ _ _ hv

theorem size_store_same (hv : v < wordSize) : (h.store (r + 4) v).size r = v :=
  Memory.load32_store32_same _ _ _ hv

theorem index_store_same (hv : v < wordSize) : (h.store (r + 8) v).index r = v :=
  Memory.load32_store32_same _ _ _ hv

theorem next_store_same (hv : v < wordSize) : (h.store (r + 12) v).next r = v :=
  Memory.load32_store32_same _ _ _ hv

/-- `next_block` when nothing wraps. -/
theorem nextBlock_eq {n : Nat} (hs : h.size a = n) (hlt : a + 16 + n < wordSize) :
    h.nextBlock a = a + 16 + n := by
  have hlt' : a + 16 < wordSize := by omega
  simp only [nextBlock, recSize, hs]
  rw [add32_eq hlt', add32_eq hlt]

theorem next_lt (h : Heap) (r : Nat) : h.next r < wordSize := Memory.load32_lt _ _

end Heap

/-- Redirecting the slot before a record only changes that link. -/
theorem Inv.next_write (I : Inv lo hi h L exc) {i x : Nat} {pre suf : List Nat}
    (hl : L.list i = pre ++ suf) {b} (hx : L.blk x = some b) (h' : Heap) {v : Nat}
    (hv : v < wordSize) :
    (h'.write (slotOf i pre) v).next x = if slotOf i pre = .next x then v else h'.next x := by
  rcases List.eq_nil_or_concat pre with rfl | ⟨pre, y, rfl⟩
  · simp [Heap.write, Heap.setBlocks, Heap.next]
  · rw [List.concat_eq_append] at hl ⊢
    rw [slotOf_concat]
    have hymem : y ∈ L.list i := by rw [hl]; simp
    obtain ⟨c, hc, -, -⟩ := I.wf.listed.mp hymem
    simp only [Heap.write, Heap.setNext, Heap.Slot.next.injEq]
    split
    next hyx => rw [hyx, Heap.next_store_same hv]
    next hyx =>
      have := I.wf.disjoint hc hx
      rw [Heap.next_store_ne (by omega)]

/-- The other words of a record do not see a write through a cursor. -/
theorem Inv.words_write (I : Inv lo hi h L exc) {i : Nat} {pre suf : List Nat}
    (hl : L.list i = pre ++ suf) {x : Nat} (hx : x = hi ∨ ∃ b, L.blk x = some b)
    (h' : Heap) (v : Nat) :
    (h'.write (slotOf i pre) v).prev x = h'.prev x ∧
      (h'.write (slotOf i pre) v).size x = h'.size x ∧
      (h'.write (slotOf i pre) v).index x = h'.index x := by
  rcases List.eq_nil_or_concat pre with rfl | ⟨pre, y, rfl⟩
  · exact ⟨rfl, rfl, rfl⟩
  · rw [List.concat_eq_append] at hl ⊢
    rw [slotOf_concat]
    have hymem : y ∈ L.list i := by rw [hl]; simp
    obtain ⟨c, hc, -, -⟩ := I.wf.listed.mp hymem
    have hsep : y = x ∨ y + 16 ≤ x ∨ x + 16 ≤ y := by
      rcases hx with rfl | ⟨b, hb⟩
      · have := I.wf.bound hc
        omega
      · have := I.wf.disjoint hc hb
        omega
    simp only [Heap.write, Heap.setNext]
    refine ⟨Heap.prev_store_ne (by omega), Heap.size_store_ne (by omega),
      Heap.index_store_ne (by omega)⟩

/-- Two places of records (blocks or the end record) coincide or lie apart. -/
theorem WF.sep (w : WF lo hi L) {x y : Nat} (hx : x = hi ∨ ∃ b, L.blk x = some b)
    (hy : y = hi ∨ ∃ b, L.blk y = some b) : x = y ∨ x + 16 ≤ y ∨ y + 16 ≤ x := by
  rcases hx with rfl | ⟨b, hb⟩ <;> rcases hy with rfl | ⟨c, hc⟩
  · exact .inl rfl
  · have := w.bound hc
    omega
  · have := w.bound hb
    omega
  · have := w.disjoint hb hc
    omega

/-! ## §3. Operations that keep every size: take, release, move. -/

/-- A change of one block's index and status, when the sizes, the other
indices and the tags elsewhere keep their words. -/
theorem Inv.rep_update (I : Inv lo hi h L exc) {h' : Heap} {L' : Layout} {a exc' : Nat}
    {b c : Blk} (hb : L.blk a = some b) (hL : L'.blk = Function.update L.blk a (some c))
    (hsize : c.size = b.size) (hexc : exc = 0 ∨ exc = a)
    (hword : ∀ x, (x = hi ∨ ∃ d, L.blk x = some d) →
      h'.size x = h.size x ∧ (h'.index x = if x = a then c.index else h.index x) ∧
        (x ≠ a + 16 + b.size → h'.prev x = h.prev x))
    (htag : a ≠ exc' → h'.prev (a + 16 + b.size) = if c.free then b.size else heapMagic)
    (hchain : ∀ i, i < count → Seg h' (h'.blocks i) (L'.list i) 0) :
    Rep lo h' L' exc' := by
  have w := I.wf
  have hget : ∀ {x d}, L'.blk x = some d → (x = a ∧ d = c) ∨ (x ≠ a ∧ L.blk x = some d) := by
    intro x d hx
    rw [hL, Function.update_apply] at hx
    split at hx
    next hxa => exact .inl ⟨hxa, (Option.some.inj hx).symm⟩
    next hxa => exact .inr ⟨hxa, hx⟩
  constructor
  case size =>
    intro x d hx
    rcases hget hx with ⟨rfl, rfl⟩ | ⟨-, hx⟩
    · rw [(hword _ (.inr ⟨b, hb⟩)).1, I.rep.size hb, hsize]
    · rw [(hword _ (.inr ⟨d, hx⟩)).1, I.rep.size hx]
  case index =>
    intro x d hx
    rcases hget hx with ⟨rfl, rfl⟩ | ⟨hxa, hx⟩
    · rw [(hword _ (.inr ⟨b, hb⟩)).2.1, if_pos rfl]
    · rw [(hword _ (.inr ⟨d, hx⟩)).2.1, if_neg hxa, I.rep.index hx]
  case tag =>
    intro x d hx hx'
    rcases hget hx with ⟨rfl, rfl⟩ | ⟨hxa, hx⟩
    · rw [hsize]
      exact htag hx'
    · have hne := I.ne_zero hx
      have := w.disjoint hb hx
      rw [(hword _ (w.succ hx)).2.2 (by omega), I.rep.tag hx (by omega)]
  case first =>
    obtain ⟨n, hn⟩ := w.tiles.first
    obtain ⟨d, hd, -⟩ := Layout.blk_of_len hn
    have := w.bound hb
    rw [(hword lo (.inr ⟨d, hd⟩)).2.2 (by omega), I.rep.first]
  case chain => exact hchain

/-- The take-all path of `get_new_block_internal`. -/
theorem Inv.take (I : Inv lo hi h L 0) {i k a : Nat} {b : Blk} {pre post : List Nat}
    (hl : L.list i = pre ++ a :: post)
    (hb : L.blk a = some b) (hbi : b.index = i) (hk : k < count)
    (hc : k < otherIndex → allSizes k ≤ b.size) :
    Inv lo hi ((h.setIndex a k).write (slotOf i pre) ((h.setIndex a k).next a))
        (L.take a b i k) a ∧
      Frame L h ((h.setIndex a k).write (slotOf i pre) ((h.setIndex a k).next a)) := by
  have w := I.wf
  have hkw : k < wordSize := lt_trans hk (by decide)
  have hnexta : (h.setIndex a k).next a = h.next a := Heap.next_store_ne (by omega)
  rw [hnexta]
  refine ⟨⟨I.pos, I.top, w.take hb hbi hk hc, ?_⟩,
    I.frame_write ((Frame.refl L h).store k (w.avoids_record hb (by omega))) hl _⟩
  refine I.rep_update hb rfl rfl (.inl rfl) (fun x hx => ?_) (fun hne => absurd rfl hne) ?_
  · obtain ⟨h1, h2, h3⟩ := I.words_write hl hx (h.setIndex a k) (h.next a)
    have hsep := w.sep (.inr ⟨b, hb⟩) hx
    refine ⟨h2.trans (Heap.size_store_ne (by omega)), h3.trans ?_,
      fun _ => h1.trans (Heap.prev_store_ne (by omega))⟩
    split
    next hxa => rw [hxa]; exact Heap.index_store_same hkw
    next hxa => exact Heap.index_store_ne (by omega)
  · refine I.chain_unlink hl (fun j => ?_) (fun j x hx hxa => ?_)
    · rw [Heap.write_blocks]
      rfl
    · obtain ⟨c, hc, -, -⟩ := w.listed.mp hx
      have := w.disjoint hb hc
      rw [I.next_write hl hc _ (Heap.next_lt h a)]
      congr 1
      exact Heap.next_store_ne (by omega)

/-- The path of `allocate` that takes the head of a size class. -/
theorem Inv.pop (I : Inv lo hi h L 0) {i a : Nat} {b : Blk} {post : List Nat}
    (hl : L.list i = a :: post) (hb : L.blk a = some b) (hbi : b.index = i) :
    Inv lo hi (h.setBlocks i (h.next a)) (L.take a b i i) a := by
  have w := I.wf
  refine ⟨I.pos, I.top, w.take hb hbi (hbi ▸ w.indexLt hb) (hbi ▸ w.classLe hb), ?_⟩
  refine I.rep_update hb rfl rfl (.inl rfl) (fun x hx => ⟨rfl, ?_, fun _ => rfl⟩)
    (fun hne => absurd rfl hne) ?_
  · split
    next hxa => rw [hxa]; exact (I.rep.index hb).trans hbi
    next => rfl
  · rw [← List.nil_append (a :: post)] at hl
    refine I.chain_unlink hl (fun j => ?_) (fun j x hx hxa => ?_)
    · exact Heap.write_blocks h (.list i) (h.next a) j
    · rw [slotOf_nil, if_neg (by simp)]
      rfl

/-- The end of `allocate`: the record is marked busy and the record after it
gets its tag. -/
theorem Inv.finish {a : Nat} (I : Inv lo hi h L a) {b : Blk}
    (hb : L.blk a = some b) (hf : b.free = false) :
    (Heap.finishAllocate a h).1 = a + 16 ∧ Inv lo hi (Heap.finishAllocate a h).2 L 0 ∧
      Frame L h (Heap.finishAllocate a h).2 := by
  have w := I.wf
  have hbound := w.bound hb
  have htop := I.top
  have hnext : (h.setHeap a h.self).nextBlock a = a + 16 + b.size := by
    refine Heap.nextBlock_eq ?_ (by omega)
    rw [Heap.setHeap, Heap.size_store_ne (by omega), I.rep.size hb]
  simp only [Heap.finishAllocate, hnext]
  refine ⟨add32_eq (by simp only [recSize]; omega), ⟨I.pos, I.top, w, ?_⟩, ?_⟩
  · refine I.rep_update (c := b) hb (Function.update_eq_self_iff.mpr hb.symm).symm rfl (.inr rfl)
      (fun x hx => ?_) (fun _ => ?_) (fun i hi' => ?_)
    · have hsep := w.sep (.inr ⟨b, hb⟩) hx
      have hsep' := w.sep (w.succ hb) hx
      simp only [Heap.setPrev, Heap.setHeap]
      refine ⟨?_, ?_, fun hne => ?_⟩
      · rw [Heap.size_store_ne (by omega), Heap.size_store_ne (by omega)]
      · rw [Heap.index_store_ne (by omega), Heap.index_store_ne (by omega)]
        split
        next hxa => rw [hxa, I.rep.index hb]
        next => rfl
      · rw [Heap.prev_store_ne (by omega), Heap.prev_store_ne (by omega)]
    · rw [hf]
      exact Heap.prev_store_same (by decide)
    · refine (I.rep.chain i hi').frame fun x hx => ?_
      obtain ⟨c, hc, hcf, -⟩ := w.listed.mp hx
      have hxa : x ≠ a := by
        rintro rfl
        rw [hb] at hc
        cases hc
        rw [hf] at hcf
        cases hcf
      have hsep := w.disjoint hb hc
      have hsep' := w.sep (w.succ hb) (.inr ⟨c, hc⟩)
      simp only [Heap.setPrev, Heap.setHeap]
      rw [Heap.next_store_ne (by omega), Heap.next_store_ne (by omega)]
  · exact (((Frame.refl L h).store _ (w.avoids_record hb (by omega))).store _
      (w.avoids_succ hb (k := 0) (by omega)))

/-- The head of a list is a word. -/
theorem Inv.head_lt (I : Inv lo hi h L exc) {i : Nat} (hi' : i < count) :
    h.blocks i < wordSize := by
  have hs := I.rep.chain i hi'
  cases hlist : L.list i with
  | nil =>
      rw [hlist] at hs
      rw [show h.blocks i = 0 from hs]
      decide
  | cons x l =>
      rw [hlist] at hs
      have hx : x ∈ L.list i := by simp [hlist]
      obtain ⟨c, hc, -, -⟩ := I.wf.listed.mp hx
      have := I.wf.bound hc
      have := I.top
      rw [hs.1]
      omega

/-- An allocated block is on no list. -/
theorem WF.not_listed (w : WF lo hi L) {a : Nat} {b : Blk} (hb : L.blk a = some b)
    (hf : b.free = false) (i : Nat) : a ∉ L.list i := by
  intro ha
  obtain ⟨c, hc, hcf, -⟩ := w.listed.mp ha
  rw [hb] at hc
  cases hc
  rw [hf] at hcf
  cases hcf

/-- What `free` does with the record `a` of an allocated block. -/
theorem Inv.free_eq (I : Inv lo hi h L exc) {a : Nat} {b : Blk} (hb : L.blk a = some b)
    (hnull : a + 16 ≠ h.nullMalloc) :
    Heap.free (a + 16) h = .ok (((h.setNext a (h.blocks b.index)).setBlocks b.index a).setPrev
      (a + 16 + b.size) b.size) := by
  have hbound := I.wf.bound hb
  have htop := I.top
  have hsub : sub32 (a + 16) recSize = a := by
    rw [sub32_eq (by simp only [recSize]; omega) (by omega)]
    simp [recSize]
  have hnext : h.nextBlock a = a + 16 + b.size :=
    Heap.nextBlock_eq (I.rep.size hb) (by omega)
  have hindex : (h.setNext a (h.blocks b.index)).index a = b.index := by
    rw [Heap.setNext, Heap.index_store_ne (by omega), I.rep.index hb]
  have hsize : ((h.setNext a (h.blocks b.index)).setBlocks b.index a).size a = b.size := by
    change (h.store (a + 12) (h.blocks b.index)).size a = b.size
    rw [Heap.size_store_ne (by omega), I.rep.size hb]
  unfold Heap.free
  rw [if_neg (by simp only [not_or]; exact ⟨by omega, hnull⟩)]
  simp only [hsub, hnext, Heap.getBlocks, I.rep.index hb, if_pos (I.wf.indexLt hb),
    Except.bind, hindex, hsize]

/-- `free` of an allocated block. -/
theorem Inv.release (I : Inv lo hi h L 0) {a : Nat} {b : Blk}
    (hb : L.blk a = some b) (hf : b.free = false) :
    Inv lo hi (((h.setNext a (h.blocks b.index)).setBlocks b.index a).setPrev
        (a + 16 + b.size) b.size) (L.release a b) 0 ∧
      Frame L h (((h.setNext a (h.blocks b.index)).setBlocks b.index a).setPrev
        (a + 16 + b.size) b.size) := by
  have w := I.wf
  have hbound := w.bound hb
  have htop := I.top
  have hindex := w.indexLt hb
  refine ⟨⟨I.pos, I.top, w.release hb hf, ?_⟩, ?_⟩
  · refine I.rep_update hb rfl rfl (.inl rfl) (fun x hx => ?_) (fun _ => ?_) ?_
    · have hsep := w.sep (.inr ⟨b, hb⟩) hx
      have hsep' := w.sep (w.succ hb) hx
      refine ⟨?_, ?_, fun hne => ?_⟩
      · rw [Heap.setPrev, Heap.size_store_ne (by omega)]
        exact Heap.size_store_ne (by omega)
      · rw [Heap.setPrev, Heap.index_store_ne (by omega)]
        refine (Heap.index_store_ne (by omega)).trans ?_
        split
        next hxa => rw [hxa, I.rep.index hb]
        next => rfl
      · rw [Heap.setPrev, Heap.prev_store_ne (by omega)]
        exact Heap.prev_store_ne (by omega)
    · rw [Heap.setPrev, Heap.prev_store_same (by omega)]
      rfl
    · have hsep := w.sep (w.succ hb) (.inr ⟨b, hb⟩)
      refine chain_push (I.ne_zero hb) I.rep.chain rfl ?_ ?_
      · rw [Heap.setPrev, Heap.next_store_ne (by omega)]
        exact Heap.next_store_same (I.head_lt hindex)
      · intro j x hx
        obtain ⟨c, hc, -, -⟩ := w.listed.mp hx
        have hsep := w.disjoint hb hc
        have hsep' := w.sep (w.succ hb) (.inr ⟨c, hc⟩)
        have hxa : x ≠ a := fun hxa => w.not_listed hb hf j (hxa ▸ hx)
        rw [Heap.setPrev, Heap.next_store_ne (by omega)]
        exact Heap.next_store_ne (by omega)
  · exact ((((Frame.refl L h).store _ (w.avoids_record hb (by omega))).setBlocks _ _).store _
      (w.avoids_succ hb (k := 0) (by omega)))

/-- The body of `coalesce_move_blocks` for a block that changes lists. -/
def moveHeap (h : Heap) (s : Heap.Slot) (a : Nat) : Heap :=
  let h := h.write s (h.next a)
  let h := h.setNext a (h.blocks otherIndex)
  let h := h.setBlocks otherIndex a
  h.setIndex a otherIndex

theorem Inv.move (I : Inv lo hi h L 0) {i a : Nat} {b : Blk} {pre post : List Nat}
    (hl : L.list i = pre ++ a :: post) (hb : L.blk a = some b) (hf : b.free = true)
    (hbi : b.index = i) :
    Inv lo hi (moveHeap h (slotOf i pre) a) (L.move a b i) 0 ∧
      Frame L h (moveHeap h (slotOf i pre) a) := by
  have w := I.wf
  have hbound := w.bound hb
  have htop := I.top
  have hother : otherIndex < count := by decide
  -- first the unlinking, then the push onto the `OTHER_INDEX` list
  set h₁ := h.write (slotOf i pre) (h.next a) with hh₁
  have hnext₁ : ∀ j, ∀ x ∈ L.list j, x ≠ a →
      h₁.next x = if slotOf i pre = .next x then h.next a else h.next x := by
    intro j x hx _
    obtain ⟨c, hc, -, -⟩ := w.listed.mp hx
    exact I.next_write hl hc h (Heap.next_lt h a)
  have hunlink := I.chain_unlink hl
    (fun j => Heap.write_blocks h (slotOf i pre) (h.next a) j) hnext₁
  have hout : ∀ j, a ∉ Function.update L.list i ((L.list i).erase a) j := by
    intro j
    simp only [Function.update_apply]
    split
    next => exact (w.nodup i).not_mem_erase
    next hji =>
      intro ha
      have hai : a ∈ L.list i := by rw [hl]; simp
      exact hji (w.list_unique ha hai)
  have hhead : h₁.blocks otherIndex < wordSize := by
    rw [hh₁, Heap.write_blocks]
    split
    · exact Heap.next_lt h a
    · exact I.head_lt hother
  refine ⟨⟨I.pos, I.top, w.move hb hf hbi, ?_⟩, ?_⟩
  · refine I.rep_update hb rfl rfl (.inl rfl) (fun x hx => ?_) (fun _ => ?_) ?_
    · obtain ⟨h1, h2, h3⟩ := I.words_write hl hx h (h.next a)
      have hsep := w.sep (.inr ⟨b, hb⟩) hx
      refine ⟨?_, ?_, fun _ => ?_⟩
      · rw [moveHeap, Heap.setIndex, Heap.size_store_ne (by omega)]
        exact (Heap.size_store_ne (by omega)).trans h2
      · split
        next hxa => rw [hxa, moveHeap, Heap.setIndex, Heap.index_store_same (by decide)]
        next hxa =>
          rw [moveHeap, Heap.setIndex, Heap.index_store_ne (by omega)]
          exact (Heap.index_store_ne (by omega)).trans h3
      · rw [moveHeap, Heap.setIndex, Heap.prev_store_ne (by omega)]
        exact (Heap.prev_store_ne (by omega)).trans h1
    · have hsep := w.sep (.inr ⟨b, hb⟩) (w.succ hb)
      rw [moveHeap, Heap.setIndex, Heap.prev_store_ne (by omega)]
      refine (Heap.prev_store_ne (by omega)).trans ?_
      exact ((I.words_write hl (w.succ hb) h (h.next a)).1).trans
        (I.rep.tag hb (I.ne_zero hb))
    · refine chain_push (I.ne_zero hb) hunlink rfl ?_ ?_
      · rw [moveHeap, Heap.setIndex, Heap.next_store_ne (by omega)]
        exact Heap.next_store_same hhead
      · intro j x hx
        have hxL : x ∈ L.list j ∨ x ∈ L.list i := by
          simp only [Function.update_apply] at hx
          split at hx
          next => exact .inr (List.mem_of_mem_erase hx)
          next => exact .inl hx
        have hxa : x ≠ a := fun hxa => hout j (hxa ▸ hx)
        have hc : ∃ c, L.blk x = some c := by
          rcases hxL with hx | hx <;> obtain ⟨c, hc, -, -⟩ := w.listed.mp hx <;> exact ⟨c, hc⟩
        obtain ⟨c, hc⟩ := hc
        have hsep := w.disjoint hb hc
        rw [moveHeap, Heap.setIndex, Heap.next_store_ne (by omega)]
        exact Heap.next_store_ne (by omega)
  · exact (((I.frame_write (Frame.refl L h) hl _).store _
      (w.avoids_record hb (by omega))).setBlocks _ _).store _ (w.avoids_record hb (by omega))

/-! ## §4. Cutting and joining blocks. -/

/-- The split path of `get_new_block_internal`: the new record `c` is cut off
the end of the free block `a`. -/
def splitHeap (h : Heap) (a c n k : Nat) : Heap :=
  let h := (h.setSize c n).setIndex c k
  let h := h.setSize a (sub32 (h.size a) (add32 n recSize))
  h.setPrev c (h.size a)

/-- The blocks after a cut: the rest of `a`, the new one, and the others. -/
theorem Layout.blk_split {a c n k x : Nat} {b d : Blk} (hx : (L.split a b c n k).blk x = some d) :
    (x = a ∧ d = { b with size := b.size - n - 16 }) ∨ (x = c ∧ d = ⟨n, k, false⟩) ∨
      (x ≠ a ∧ L.blk x = some d) := by
  simp only [Layout.split, Function.update_apply, recSize] at hx
  split at hx
  next hxa => exact .inl ⟨hxa, (Option.some.inj hx).symm⟩
  next hxa =>
    split at hx
    next hxc => exact .inr (.inl ⟨hxc, (Option.some.inj hx).symm⟩)
    next => exact .inr (.inr ⟨hxa, hx⟩)

/-- What a cut stores: the size that the code computes for the rest of `a` does not wrap. -/
theorem Inv.splitHeap_eq (I : Inv lo hi h L 0) {a c n k : Nat} {b : Blk} (hb : L.blk a = some b)
    (hac : a + 24 ≤ c) (hca : c + n = a + b.size) (hn : n + 16 ≤ b.size) :
    splitHeap h a c n k = (((h.setSize c n).setIndex c k).setSize a (b.size - n - 16)).setPrev c
      (b.size - n - 16) := by
  have hbound := I.wf.bound hb
  have htop := I.top
  have hsize : ((h.setSize c n).setIndex c k).size a = b.size := by
    rw [Heap.setIndex, Heap.size_store_ne (by omega), Heap.setSize,
      Heap.size_store_ne (by omega), I.rep.size hb]
  have hrest : sub32 (((h.setSize c n).setIndex c k).size a) (add32 n recSize)
      = b.size - n - 16 := by
    rw [hsize, recSize, add32_eq (by omega), sub32_eq (by omega) (by omega)]
    omega
  simp only [splitHeap, hrest]
  rw [Heap.setSize, Heap.size_store_same (by omega)]

theorem Inv.split (I : Inv lo hi h L 0) {a c n k : Nat} {b : Blk}
    (hb : L.blk a = some b) (hf : b.free = true) (hother : b.index = otherIndex)
    (hc : c = a + b.size - n) (hn : n + minFrag ≤ b.size) (hm : n % 4 = 0)
    (hk : k < count) (hcl : k < otherIndex → allSizes k ≤ n) :
    Inv lo hi (splitHeap h a c n k) (L.split a b c n k) c ∧
      Frame L h (splitHeap h a c n k) := by
  have w := I.wf
  have hbound := w.bound hb
  have htop := I.top
  have hkw : k < wordSize := lt_trans hk (by decide)
  have hwf := w.split hb hc hn hm hother hk hcl
  simp only [minFrag, recSize, wordBytes] at hn
  have hac : a + 24 ≤ c := by omega
  have hca : c + n = a + b.size := by omega
  rw [I.splitHeap_eq hb hac hca (by omega)]
  refine ⟨⟨I.pos, I.top, hwf, ?_⟩, ?_⟩
  · -- every record of `L` is `a` or clear of the cut
    have hclear : ∀ x, (x = hi ∨ ∃ d, L.blk x = some d) →
        x = a ∨ x + 16 ≤ a ∨ c + 16 ≤ x := by
      rintro x (rfl | ⟨d, hd⟩)
      · omega
      · have := w.disjoint hb hd
        omega
    simp only [Heap.setPrev, Heap.setSize, Heap.setIndex]
    constructor
    case size =>
      intro x d hx
      rcases Layout.blk_split hx with ⟨rfl, rfl⟩ | ⟨rfl, rfl⟩ | ⟨hxa, hx⟩
      · rw [Heap.size_store_ne (by omega), Heap.size_store_same (by omega)]
      · rw [Heap.size_store_ne (by omega), Heap.size_store_ne (by omega),
          Heap.size_store_ne (by omega), Heap.size_store_same (by omega)]
      · have := hclear x (.inr ⟨d, hx⟩)
        rw [Heap.size_store_ne (by omega), Heap.size_store_ne (by omega),
          Heap.size_store_ne (by omega), Heap.size_store_ne (by omega), I.rep.size hx]
    case index =>
      intro x d hx
      rcases Layout.blk_split hx with ⟨rfl, rfl⟩ | ⟨rfl, rfl⟩ | ⟨hxa, hx⟩
      · rw [Heap.index_store_ne (by omega), Heap.index_store_ne (by omega),
          Heap.index_store_ne (by omega), Heap.index_store_ne (by omega), I.rep.index hb]
      · rw [Heap.index_store_ne (by omega), Heap.index_store_ne (by omega),
          Heap.index_store_same hkw]
      · have := hclear x (.inr ⟨d, hx⟩)
        rw [Heap.index_store_ne (by omega), Heap.index_store_ne (by omega),
          Heap.index_store_ne (by omega), Heap.index_store_ne (by omega), I.rep.index hx]
    case tag =>
      intro x d hx hxc
      rcases Layout.blk_split hx with ⟨rfl, rfl⟩ | ⟨rfl, rfl⟩ | ⟨hxa, hx⟩
      · rw [show x + 16 + (b.size - n - 16) = c by omega, Heap.prev_store_same (by omega),
          if_pos hf]
      · exact absurd rfl hxc
      · have := hclear _ (w.succ hx)
        rw [Heap.prev_store_ne (by omega), Heap.prev_store_ne (by omega),
          Heap.prev_store_ne (by omega), Heap.prev_store_ne (by omega),
          I.rep.tag hx (I.ne_zero hx)]
    case first =>
      rw [Heap.prev_store_ne (by omega), Heap.prev_store_ne (by omega),
        Heap.prev_store_ne (by omega), Heap.prev_store_ne (by omega), I.rep.first]
    case chain =>
      intro i hi'
      refine (I.rep.chain i hi').frame fun x hx => ?_
      obtain ⟨d, hd, -, -⟩ := w.listed.mp hx
      have := hclear x (.inr ⟨d, hd⟩)
      rw [Heap.next_store_ne (by omega), Heap.next_store_ne (by omega),
        Heap.next_store_ne (by omega), Heap.next_store_ne (by omega)]
  · refine ((((Frame.refl L h).store _ ?_).store _ ?_).store _ ?_).store _ ?_
    · exact w.avoids_free hb hf (by omega) (by omega)
    · exact w.avoids_free hb hf (by omega) (by omega)
    · exact w.avoids_record hb (by omega)
    · exact w.avoids_free hb hf (by omega) (by omega)

/-- The body of `coalesce_merge_blocks` for a block `a` whose predecessor `p`
is free. -/
def mergeHeap (h : Heap) (s : Heap.Slot) (p a : Nat) : Heap :=
  let h := h.setSize p (add32 (h.size p) (add32 (h.size a) recSize))
  let h := h.setPrev (h.nextBlock a) (h.size p)
  h.write s (h.next a)

/-- The blocks after a join: the longer `p`, and the others but `a`. -/
theorem Layout.blk_merge {i p a x : Nat} {b d e : Blk} (hx : (L.merge p d a b i).blk x = some e) :
    (x = p ∧ e = { d with size := d.size + b.size + 16 }) ∨
      (x ≠ p ∧ x ≠ a ∧ L.blk x = some e) := by
  simp only [Layout.merge, Function.update_apply, recSize] at hx
  split at hx
  next => cases hx
  next hxa =>
    split at hx
    next hxp => exact .inl ⟨hxp, (Option.some.inj hx).symm⟩
    next hxp => exact .inr ⟨hxp, hxa, hx⟩

/-- What a join stores: the sum of the sizes does not wrap, and the word after `a` is the tag
that it goes to. -/
theorem Inv.mergeHeap_eq (I : Inv lo hi h L 0) {p a : Nat} {b d : Blk} (s : Heap.Slot)
    (hp : L.blk p = some d) (hb : L.blk a = some b) (hpa : p + 16 + d.size = a) :
    mergeHeap h s p a = ((h.setSize p (d.size + b.size + 16)).setPrev (a + 16 + b.size)
      (d.size + b.size + 16)).write s (h.next a) := by
  have hbound := I.wf.bound hb
  have htop := I.top
  set n := d.size + b.size + 16 with hn
  have hsum : add32 (h.size p) (add32 (h.size a) recSize) = n := by
    rw [I.rep.size hp, I.rep.size hb, recSize]
    have hlt : b.size + 16 < wordSize := by omega
    rw [add32_eq hlt, add32_eq (by omega)]
    omega
  have hnext : (h.setSize p n).nextBlock a = a + 16 + b.size := by
    refine Heap.nextBlock_eq ?_ (by omega)
    rw [Heap.setSize, Heap.size_store_ne (by omega), I.rep.size hb]
  have hlink : ((h.setSize p n).setPrev (a + 16 + b.size) n).next a = h.next a := by
    rw [Heap.setPrev, Heap.next_store_ne (by omega), Heap.setSize,
      Heap.next_store_ne (by omega)]
  simp only [mergeHeap, hsum, hnext]
  rw [show (h.setSize p n).size p = n from Heap.size_store_same (by omega), hlink]

/-- The words of a record after a join: only the tag after `a` and the size of `p` are new. -/
theorem Inv.merge_words (I : Inv lo hi h L 0) {i p a x : Nat} {b d : Blk} {pre post : List Nat}
    (hl : L.list i = pre ++ a :: post) (hp : L.blk p = some d) (hb : L.blk a = some b)
    (hx : x = hi ∨ ∃ e, L.blk x = some e) (n v : Nat) (hn : n < wordSize) :
    (((h.setSize p n).setPrev (a + 16 + b.size) n).write (slotOf i pre) v).prev x
        = (if x = a + 16 + b.size then n else h.prev x) ∧
      (((h.setSize p n).setPrev (a + 16 + b.size) n).write (slotOf i pre) v).size x
        = (if x = p then n else h.size x) ∧
      (((h.setSize p n).setPrev (a + 16 + b.size) n).write (slotOf i pre) v).index x
        = h.index x := by
  have w := I.wf
  obtain ⟨h1, h2, h3⟩ := I.words_write hl hx ((h.setSize p n).setPrev (a + 16 + b.size) n) v
  have hsep := w.sep (.inr ⟨d, hp⟩) hx
  have hsep' := w.sep (w.succ hb) hx
  rw [h1, h2, h3]
  simp only [Heap.setPrev, Heap.setSize]
  refine ⟨?_, ?_, ?_⟩
  · split
    next hxt => rw [hxt, Heap.prev_store_same (by omega)]
    next hxt => rw [Heap.prev_store_ne (by omega), Heap.prev_store_ne (by omega)]
  · split
    next hxp => rw [hxp, Heap.size_store_ne (by omega), Heap.size_store_same (by omega)]
    next hxp => rw [Heap.size_store_ne (by omega), Heap.size_store_ne (by omega)]
  · rw [Heap.index_store_ne (by omega), Heap.index_store_ne (by omega)]

theorem Inv.merge (I : Inv lo hi h L 0) {i p a : Nat} {b d : Blk} {pre post : List Nat}
    (hl : L.list i = pre ++ a :: post) (hp : L.blk p = some d) (hpf : d.free = true)
    (hb : L.blk a = some b) (hpa : p + 16 + d.size = a) (hbi : b.index = i) :
    Inv lo hi (mergeHeap h (slotOf i pre) p a) (L.merge p d a b i) 0 ∧
      Frame L h (mergeHeap h (slotOf i pre) p a) := by
  have w := I.wf
  have hbound := w.bound hb
  have hboundp := w.bound hp
  have htop := I.top
  set n := d.size + b.size + 16 with hn
  have hword : ∀ x, (x = hi ∨ ∃ e, L.blk x = some e) → ∀ v, _ :=
    fun x hx v => I.merge_words hl hp hb hx n v (by omega)
  rw [I.mergeHeap_eq _ hp hb hpa]
  refine ⟨⟨I.pos, I.top, w.merge hp hb hpa hbi, ?_⟩, ?_⟩
  · constructor
    case size =>
      intro x e hx
      rcases Layout.blk_merge hx with ⟨rfl, rfl⟩ | ⟨hxp, -, hx⟩
      · rw [(hword _ (.inr ⟨d, hp⟩) _).2.1, if_pos rfl]
      · rw [(hword _ (.inr ⟨e, hx⟩) _).2.1, if_neg hxp, I.rep.size hx]
    case index =>
      intro x e hx
      rcases Layout.blk_merge hx with ⟨rfl, rfl⟩ | ⟨hxp, -, hx⟩
      · rw [(hword _ (.inr ⟨d, hp⟩) _).2.2, I.rep.index hp]
      · rw [(hword _ (.inr ⟨e, hx⟩) _).2.2, I.rep.index hx]
    case tag =>
      intro x e hx _
      rcases Layout.blk_merge hx with ⟨rfl, rfl⟩ | ⟨hxp, hxa, hx⟩
      · rw [show x + 16 + n = a + 16 + b.size by omega, (hword _ (w.succ hb) _).1,
          if_pos rfl, if_pos hpf]
      · have := w.disjoint hb hx
        rw [(hword _ (w.succ hx) _).1, if_neg (by omega), I.rep.tag hx (I.ne_zero hx)]
    case first =>
      obtain ⟨m, hm⟩ := w.tiles.first
      obtain ⟨e, he, -⟩ := Layout.blk_of_len hm
      rw [(hword lo (.inr ⟨e, he⟩) _).1, if_neg (by omega), I.rep.first]
    case chain =>
      refine I.chain_unlink hl (fun j => ?_) (fun j x hx hxa => ?_)
      · rw [Heap.write_blocks]
        rfl
      · obtain ⟨e, he, -, -⟩ := w.listed.mp hx
        have hsep := w.sep (.inr ⟨d, hp⟩) (.inr ⟨e, he⟩)
        have hsep' := w.sep (w.succ hb) (.inr ⟨e, he⟩)
        rw [I.next_write hl he _ (Heap.next_lt h a)]
        congr 1
        rw [Heap.setPrev, Heap.next_store_ne (by omega), Heap.setSize,
          Heap.next_store_ne (by omega)]
  · exact I.frame_write (((Frame.refl L h).store _ (w.avoids_record hp (by omega))).store _
      (w.avoids_succ hb (k := 0) (by omega))) hl _

end Metta.HeapMod
