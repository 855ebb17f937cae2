/-
  Metta.HeapMod.Inv — the heap invariant.

  `Rep` says that the words of a heap are those of a layout: the `size` and
  `index` words of every record, the boundary tag after every block, and the
  `next` links of every free list.  One block, `exc`, may be excused from
  its boundary tag: `allocate` unlinks or cuts a block first and writes the
  tag after it last.  `Inv` joins `WF` and `Rep`.

  The second half is about `heap_rec_t**` cursors.  A cursor into a list is
  the slot that points at the rest of it (`slotOf`), and `Seg` is the part
  of a list between two pointers, so that unlinking the block under the
  cursor is one lemma whatever the block's position.
-/
import Metta.HeapMod.Layout

namespace Metta.HeapMod

open Metta.Machine

/-! ## §1. Linked lists in memory. -/

/-- Following `next` from `p` through the records `l` leads to `q`. -/
def Seg (h : Heap) : Nat → List Nat → Nat → Prop
  | p, [], q => p = q
  | p, a :: l, q => p = a ∧ a ≠ 0 ∧ Seg h (h.next a) l q

theorem Seg.append {h : Heap} {l l' : List Nat} {p q : Nat} :
    Seg h p (l ++ l') q ↔ ∃ r, Seg h p l r ∧ Seg h r l' q := by
  induction l generalizing p with
  | nil => simp [Seg]
  | cons a l ih =>
      simp only [List.cons_append, Seg, ih]
      constructor
      · rintro ⟨hp, ha, r, hl, hl'⟩
        exact ⟨r, ⟨hp, ha, hl⟩, hl'⟩
      · rintro ⟨r, ⟨hp, ha, hl⟩, hl'⟩
        exact ⟨hp, ha, r, hl, hl'⟩

/-- A segment survives any change that keeps the links of its records. -/
theorem Seg.frame {h h' : Heap} {l : List Nat} {p q : Nat} (hs : Seg h p l q)
    (hl : ∀ a ∈ l, h'.next a = h.next a) : Seg h' p l q := by
  induction l generalizing p with
  | nil => exact hs
  | cons a l ih =>
      obtain ⟨hp, ha, hs⟩ := hs
      refine ⟨hp, ha, ?_⟩
      rw [hl a List.mem_cons_self]
      exact ih hs fun c hc => hl c (List.mem_cons_of_mem _ hc)

/-- The slot that points at what follows `pre` in list `i`. -/
def slotOf (i : Nat) (pre : List Nat) : Heap.Slot :=
  match pre.getLast? with
  | none => .list i
  | some r => .next r

@[simp] theorem slotOf_nil (i : Nat) : slotOf i [] = .list i := rfl

@[simp] theorem slotOf_concat (i : Nat) (pre : List Nat) (r : Nat) :
    slotOf i (pre ++ [r]) = .next r := by
  simp [slotOf]

theorem slotOf_cons_of_ne_nil (i a : Nat) {pre : List Nat} (h : pre ≠ []) :
    slotOf i (a :: pre) = slotOf i pre := by
  simp only [slotOf]
  rw [List.getLast?_cons, List.getLast?_eq_some_getLast h]
  simp

/-- Reading through the cursor gives the next record. -/
theorem read_slotOf {h : Heap} {i q : Nat} {pre : List Nat}
    (hs : Seg h (h.blocks i) pre q) : h.read (slotOf i pre) = q := by
  rcases List.eq_nil_or_concat pre with rfl | ⟨pre, r, rfl⟩
  · exact hs
  · rw [List.concat_eq_append] at hs ⊢
    rw [slotOf_concat]
    obtain ⟨_, -, -, -, hr⟩ := Seg.append.mp hs
    exact hr

/-! ## §2. Words and the invariant. -/

/-- The words of `h` are those of `L`, up to the tag after the block `exc`. -/
structure Rep (lo : Nat) (h : Heap) (L : Layout) (exc : Nat) : Prop where
  size : ∀ {a b}, L.blk a = some b → h.size a = b.size
  index : ∀ {a b}, L.blk a = some b → h.index a = b.index
  tag : ∀ {a b}, L.blk a = some b → a ≠ exc →
    h.prev (a + 16 + b.size) = if b.free then b.size else heapMagic
  first : h.prev lo = heapMagic
  chain : ∀ i, i < count → Seg h (h.blocks i) (L.list i) 0

/-- **The heap invariant**: `h` represents the well-formed layout `L` of an
area inside the 32-bit address space. -/
structure Inv (lo hi : Nat) (h : Heap) (L : Layout) (exc : Nat) : Prop where
  pos : 0 < lo
  top : hi + 16 < wordSize
  wf : WF lo hi L
  rep : Rep lo h L exc

namespace Heap

@[simp] theorem store_blocks (h : Heap) (a v : Nat) : (h.store a v).blocks = h.blocks := rfl

theorem write_blocks (h : Heap) (s : Slot) (v j : Nat) :
    (h.write s v).blocks j = if s = .list j then v else h.blocks j := by
  cases s with
  | list i =>
      simp only [write, setBlocks, Function.update_apply, Slot.list.injEq]
      split <;> split <;> first | rfl | omega
  | next r => simp [write, setNext]

end Heap

variable {lo hi : Nat} {h : Heap} {L : Layout} {exc : Nat}

/-- A list record is a block, hence not `NULL`. -/
theorem Inv.ne_zero (I : Inv lo hi h L exc) {a b} (hb : L.blk a = some b) : a ≠ 0 := by
  have := I.wf.bound hb
  have := I.pos
  omega

/-- Membership in a list, with the block it names. -/
theorem Inv.get_listed (I : Inv lo hi h L exc) {i a : Nat} {pre post : List Nat}
    (hl : L.list i = pre ++ a :: post) :
    ∃ b, L.blk a = some b ∧ b.free = true ∧ b.index = i :=
  I.wf.listed.mp (by rw [hl]; simp)

/-- The cursor after `pre` reads the head of the rest. -/
theorem Inv.read_cons (I : Inv lo hi h L exc) {i a : Nat} {pre post : List Nat}
    (hi' : i < count) (hl : L.list i = pre ++ a :: post) :
    h.read (slotOf i pre) = a := by
  have hs := I.rep.chain i hi'
  rw [hl] at hs
  obtain ⟨r, hpre, hr, -⟩ := Seg.append.mp hs
  rw [read_slotOf hpre, hr]

/-- At the end of a list the cursor reads `NULL`. -/
theorem Inv.read_nil (I : Inv lo hi h L exc) {i : Nat} {pre : List Nat}
    (hi' : i < count) (hl : L.list i = pre) : h.read (slotOf i pre) = 0 := by
  have hs := I.rep.chain i hi'
  rw [hl] at hs
  exact read_slotOf hs

/-! ## §3. Unlinking a record from its list. -/

/-- **Unlinking**: when the slot before `a` is redirected to `a`'s successor
and no other link changes, every list keeps its records, less `a`. -/
theorem Inv.chain_unlink (I : Inv lo hi h L exc) {h' : Heap} {i a : Nat}
    {pre post : List Nat} (hl : L.list i = pre ++ a :: post)
    (hblocks : ∀ j, h'.blocks j = if slotOf i pre = .list j then h.next a else h.blocks j)
    (hnext : ∀ j, ∀ x ∈ L.list j, x ≠ a →
      h'.next x = if slotOf i pre = .next x then h.next a else h.next x) :
    ∀ j, j < count →
      Seg h' (h'.blocks j) (Function.update L.list i ((L.list i).erase a) j) 0 := by
  intro j hj
  have hnd := I.wf.nodup i
  rw [hl] at hnd
  have hapre : a ∉ pre := fun ha => by
    have := (List.nodup_append.mp hnd).2.2 a ha a (by simp)
    exact this rfl
  have hapost : a ∉ post := (List.nodup_cons.mp (List.nodup_append.mp hnd).2.1).1
  have herase : (L.list i).erase a = pre ++ post := by
    rw [hl, List.erase_append_right _ hapre, List.erase_cons_head]
  have hmem : ∀ {x}, x ∈ pre ++ post → x ∈ L.list i := by
    intro x hx
    rw [hl]
    simp only [List.mem_append, List.mem_cons] at hx ⊢
    tauto
  simp only [Function.update_apply]
  split
  next hji =>
    subst hji
    rw [herase]
    have hs := I.rep.chain j hj
    rw [hl] at hs
    obtain ⟨r, hpre, hr, -, hpost⟩ := Seg.append.mp hs
    -- what follows `a` is untouched, and the slot before it is redirected
    have hpost' : ∀ x ∈ post, slotOf j pre ≠ .next x → h'.next x = h.next x := by
      intro x hx hslot
      rw [hnext j x (hmem (List.mem_append_right _ hx)) (fun hxa => hapost (hxa ▸ hx)),
        if_neg hslot]
    rcases List.eq_nil_or_concat pre with rfl | ⟨pre, x, rfl⟩
    · rw [List.nil_append, hblocks j, slotOf_nil, if_pos rfl]
      exact hpost.frame fun y hy => hpost' y hy (by simp)
    · rw [List.concat_eq_append] at *
      rw [slotOf_concat] at hblocks hnext hpost'
      have hndx := (List.nodup_append.mp hnd).1
      have hxpost : x ∉ post := fun hx => by
        have := (List.nodup_append.mp hnd).2.2 x (by simp) x (List.mem_cons_of_mem _ hx)
        exact this rfl
      rw [hblocks j, if_neg (by simp), Seg.append]
      obtain ⟨q, hq, hqx, hx0, hxr⟩ := Seg.append.mp hpre
      refine ⟨h.next a, Seg.append.mpr ⟨x, ?_, rfl, hqx ▸ hx0, ?_⟩, ?_⟩
      · subst hqx
        refine hq.frame fun y hy => ?_
        have hyx : y ≠ q := by
          rintro rfl
          exact (List.nodup_append.mp hndx).2.2 y hy y (by simp) rfl
        rw [hnext j y (hmem (by simp [hy])) (fun hya => hapre (by simp [← hya, hy])),
          if_neg (by simpa using fun hh => hyx hh.symm)]
      · rw [hnext j x (hmem (by simp)) (fun hxa => hapre (by simp [hxa])), if_pos rfl]
        rfl
      · exact hpost.frame fun y hy => hpost' y hy (fun hh => by
          simp only [Heap.Slot.next.injEq] at hh
          exact hxpost (hh ▸ hy))
  next hji =>
    have hslot : slotOf i pre ≠ .list j := by
      rcases List.eq_nil_or_concat pre with rfl | ⟨pre, x, rfl⟩
      · simpa using fun hh => hji hh.symm
      · simp
    rw [hblocks j, if_neg hslot]
    refine (I.rep.chain j hj).frame fun x hx => ?_
    have hxi : x ∉ L.list i := fun hxi => hji (I.wf.list_unique hx hxi)
    have hxa : x ≠ a := by
      rintro rfl
      exact hxi (by rw [hl]; simp)
    rw [hnext j x hx hxa, if_neg]
    intro hh
    rcases List.eq_nil_or_concat pre with rfl | ⟨pre, y, rfl⟩
    · simp at hh
    · rw [List.concat_eq_append, slotOf_concat] at hh
      simp only [Heap.Slot.next.injEq] at hh
      exact hxi (by rw [hl, ← hh]; simp)

/-- **Pushing**: a record that is on no list is linked in front of list `i`. -/
theorem chain_push {h h' : Heap} {list : Nat → List Nat} {i a : Nat} (ha : a ≠ 0)
    (hchain : ∀ j, j < count → Seg h (h.blocks j) (list j) 0)
    (hblocks : h'.blocks = Function.update h.blocks i a)
    (hlink : h'.next a = h.blocks i)
    (hnext : ∀ j, ∀ x ∈ list j, h'.next x = h.next x) :
    ∀ j, j < count → Seg h' (h'.blocks j) (Function.update list i (a :: list i) j) 0 := by
  intro j hj
  rw [hblocks]
  simp only [Function.update_apply]
  split
  next hji =>
    subst hji
    refine ⟨rfl, ha, ?_⟩
    rw [hlink]
    exact (hchain j hj).frame (hnext j)
  next => exact (hchain j hj).frame (hnext j)

end Metta.HeapMod
