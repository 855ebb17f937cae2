/-
  Metta.HeapMod.Allocate — what `allocate` does to a well-formed heap.

  The loops first: each iteration of a merge, move or first-fit loop is one
  of the operations of `Ops`, or a step of the cursor, so an induction on
  the iteration bound carries the invariant through the loop.  Then
  `get_new_block` and `allocate`, with the size classes in between.

  A loop may use up its bound (`Fault.running`); it never faults otherwise,
  so the panic of `coalesce_merge_blocks` is unreachable and no list index
  outside `blocks[]` is used.
-/
import Metta.HeapMod.Ops

namespace Metta.HeapMod

open Metta.Machine

variable {lo hi : Nat} {h : Heap} {L : Layout}

/-! ## §1. Evolution of a heap. -/

/-- `h` with layout `L` has become `h'` with layout `L'`: live payloads were
not written, allocated blocks are still there, and no block other than
`new` has become allocated. -/
structure Evolves (lo hi : Nat) (h : Heap) (L : Layout) (h' : Heap) (L' : Layout)
    (new exc : Nat) : Prop where
  inv : Inv lo hi h' L' exc
  frame : Frame L h h'
  keep : ∀ {a b}, L.blk a = some b → b.free = false → L'.blk a = some b
  fresh : ∀ {a b}, L'.blk a = some b → b.free = false → L.blk a = some b ∨ a = new

theorem Evolves.refl (I : Inv lo hi h L 0) : Evolves lo hi h L h L 0 0 :=
  ⟨I, .refl L h, fun hb _ => hb, fun hb _ => .inl hb⟩

theorem Evolves.trans {h' h'' : Heap} {L' L'' : Layout} {new exc : Nat}
    (e : Evolves lo hi h L h' L' 0 0) (e' : Evolves lo hi h' L' h'' L'' new exc) :
    Evolves lo hi h L h'' L'' new exc where
  inv := e'.inv
  frame := e.frame.trans (e'.frame.mono fun _ _ hb hf => e.keep hb hf)
  keep hb hf := e'.keep (e.keep hb hf) hf
  fresh hb hf := by
    rcases e'.fresh hb hf with hb' | rfl
    · rcases e.fresh hb' hf with hb'' | h0
      · exact .inl hb''
      · exact absurd h0 (e.inv.ne_zero hb')
    · exact .inr rfl

/-- The list of a record without that record. -/
theorem WF.erase_eq (w : WF lo hi L) {i a : Nat} {pre post : List Nat}
    (hl : L.list i = pre ++ a :: post) : (L.list i).erase a = pre ++ post := by
  have hnd := w.nodup i
  rw [hl] at hnd ⊢
  have hapre : a ∉ pre := fun ha =>
    (List.nodup_append.mp hnd).2.2 a ha a (by simp) rfl
  rw [List.erase_append_right _ hapre, List.erase_cons_head]

/-! ## §2. Coalescing. -/

theorem Evolves.merge (I : Inv lo hi h L 0) {i p a : Nat} {b d : Blk} {pre post : List Nat}
    (hl : L.list i = pre ++ a :: post) (hp : L.blk p = some d) (hpf : d.free = true)
    (hb : L.blk a = some b) (hf : b.free = true) (hpa : p + 16 + d.size = a)
    (hbi : b.index = i) :
    Evolves lo hi h L (mergeHeap h (slotOf i pre) p a) (L.merge p d a b i) 0 0 := by
  obtain ⟨hinv, hframe⟩ := I.merge hl hp hpf hb hpa hbi
  refine ⟨hinv, hframe, ?_, ?_⟩
  · intro x e hx hxf
    simp only [Layout.merge, Function.update_apply]
    grind
  · intro x e hx hxf
    simp only [Layout.merge, Function.update_apply] at hx
    grind

theorem Evolves.move (I : Inv lo hi h L 0) {i a : Nat} {b : Blk} {pre post : List Nat}
    (hl : L.list i = pre ++ a :: post) (hb : L.blk a = some b) (hf : b.free = true)
    (hbi : b.index = i) :
    Evolves lo hi h L (moveHeap h (slotOf i pre) a) (L.move a b i) 0 0 := by
  obtain ⟨hinv, hframe⟩ := I.move hl hb hf hbi
  refine ⟨hinv, hframe, ?_, ?_⟩
  · intro x e hx hxf
    simp only [Layout.move, Function.update_apply]
    grind
  · intro x e hx hxf
    simp only [Layout.move, Function.update_apply] at hx
    grind

/-- A block whose tag is not the magic has a free block right before it. -/
theorem Inv.free_pred (I : Inv lo hi h L 0) {a : Nat} {b : Blk} (hb : L.blk a = some b)
    (htag : h.prev a ≠ heapMagic) :
    ∃ p d, L.blk p = some d ∧ d.free = true ∧ p + 16 + d.size = a ∧ h.prev a = d.size := by
  rcases I.wf.pred hb with rfl | ⟨p, d, hp, hpa⟩
  · exact absurd I.rep.first htag
  · have ht := I.rep.tag hp (I.ne_zero hp)
    rw [hpa] at ht
    cases hd : d.free with
    | false => rw [hd] at ht; exact absurd ht htag
    | true => rw [hd] at ht; exact ⟨p, d, hp, hd, hpa, ht⟩

/-- **One turn of the merge loop** at a block of the list: it steps over a block whose tag is the
magic, and any other block is absorbed by the free block before it. -/
theorem Inv.mergeLoop_cons (I : Inv lo hi h L 0) {i a : Nat} {pre post : List Nat}
    (hi' : i < count) (hl : L.list i = pre ++ a :: post) (n : Nat) :
    h.prev a = heapMagic ∧
        Heap.mergeLoop (n + 1) (slotOf i pre) h = Heap.mergeLoop n (slotOf i (pre ++ [a])) h ∨
      ∃ p d b, L.blk p = some d ∧ d.free = true ∧ L.blk a = some b ∧ b.free = true ∧
        b.index = i ∧ p + 16 + d.size = a ∧
        Heap.mergeLoop (n + 1) (slotOf i pre) h
          = Heap.mergeLoop n (slotOf i pre) (mergeHeap h (slotOf i pre) p a) := by
  obtain ⟨b, hb, hf, hbi⟩ := I.get_listed hl
  have hread := I.read_cons hi' hl
  have hbound := I.wf.bound hb
  have htop := I.top
  by_cases htag : h.prev a = heapMagic
  · -- the block before `a` is allocated: step the cursor
    refine .inl ⟨htag, ?_⟩
    simp only [Heap.mergeLoop, hread, I.ne_zero hb, htag, if_false, ne_eq, not_true,
      slotOf_concat]
  · -- the block before `a` is free: it absorbs `a`
    obtain ⟨p, d, hp, hpf, hpa, hprev⟩ := I.free_pred hb htag
    have hboundp := I.wf.bound hp
    have hbefore : h.prevBlock a = p := by
      simp only [Heap.prevBlock, hprev, recSize]
      have hsub : sub32 a 16 = a - 16 := sub32_eq (by omega) (by omega)
      rw [hsub, sub32_eq (by omega) (by omega)]
      omega
    have hnext : h.nextBlock p = a := by
      rw [Heap.nextBlock_eq (I.rep.size hp) (by omega), hpa]
    refine .inr ⟨p, d, b, hp, hpf, hb, hf, hbi, hpa, ?_⟩
    simp only [Heap.mergeLoop, hread, I.ne_zero hb, htag, if_false, ne_eq,
      not_false_eq_true, if_true, hbefore, hnext, not_true, mergeHeap]

/-- The merge loop. -/
theorem mergeLoop_spec {i : Nat} (hi' : i < count) :
    ∀ (n : Nat) (h : Heap) (L : Layout) (pre suf : List Nat),
      Inv lo hi h L 0 → L.list i = pre ++ suf →
      Heap.mergeLoop n (slotOf i pre) h = .error .running ∨
        ∃ h' L', Heap.mergeLoop n (slotOf i pre) h = .ok h' ∧
          Evolves lo hi h L h' L' 0 0 := by
  intro n
  induction n with
  | zero => intro h L pre suf _ _; exact .inl rfl
  | succ n ih =>
      intro h L pre suf I hl
      cases suf with
      | nil =>
          rw [List.append_nil] at hl
          refine .inr ⟨h, L, ?_, .refl I⟩
          simp only [Heap.mergeLoop, I.read_nil hi' hl, if_true]
      | cons a post =>
          rcases I.mergeLoop_cons hi' hl n with
            ⟨-, hstep⟩ | ⟨p, d, b, hp, hpf, hb, hf, hbi, hpa, hstep⟩
          · rw [hstep]
            exact ih h L (pre ++ [a]) post I (by simpa using hl)
          · have e := Evolves.merge I hl hp hpf hb hf hpa hbi
            have hl' : (L.merge p d a b i).list i = pre ++ post := by
              simp only [Layout.merge, Function.update_self]
              exact I.wf.erase_eq hl
            rw [hstep]
            rcases ih _ _ pre post e.inv hl' with hrun | ⟨h', L', hok, e'⟩
            · exact .inl hrun
            · exact .inr ⟨h', L', hok, e.trans e'⟩

/-- **One turn of the move loop** at a block of the list: it steps over a block of the right
class, and moves any other. -/
theorem Inv.moveLoop_cons (I : Inv lo hi h L 0) {i a : Nat} {b : Blk} {pre post : List Nat}
    (hi' : i < count) (hl : L.list i = pre ++ a :: post) (hb : L.blk a = some b) (n : Nat) :
    Heap.moveLoop (n + 1) (slotOf i pre) h
      = if findIndex b.size = i then Heap.moveLoop n (slotOf i (pre ++ [a])) h
        else Heap.moveLoop n (slotOf i pre) (moveHeap h (slotOf i pre) a) := by
  have hbi : b.index = i := by
    obtain ⟨b', hb', -, hbi⟩ := I.get_listed hl
    rw [hb] at hb'
    cases hb'
    exact hbi
  have hread := I.read_cons hi' hl
  have hsize := I.rep.size hb
  have hindex := I.rep.index hb
  by_cases hclass : findIndex b.size = i
  · rw [if_pos hclass]
    simp only [Heap.moveLoop, hread, I.ne_zero hb, hsize, hindex, hbi, hclass, if_false, ne_eq,
      not_true, slotOf_concat]
  · rw [if_neg hclass]
    simp only [Heap.moveLoop, hread, I.ne_zero hb, hsize, hindex, hbi, hclass, if_false, ne_eq,
      not_false_eq_true, if_true, moveHeap]

/-- The `OTHER_INDEX` list after a move within it. -/
theorem WF.move_list_other (w : WF lo hi L) {a : Nat} {b : Blk} {pre post : List Nat}
    (hl : L.list otherIndex = pre ++ a :: post) :
    (L.move a b otherIndex).list otherIndex = a :: (pre ++ post) := by
  simp only [Layout.move, Function.update_self]
  rw [w.erase_eq hl]

/-- Another list after a move from it. -/
theorem WF.move_list_self (w : WF lo hi L) {a i : Nat} {b : Blk} {pre post : List Nat}
    (hio : i ≠ otherIndex) (hl : L.list i = pre ++ a :: post) :
    (L.move a b i).list i = pre ++ post := by
  simp only [Layout.move, Function.update_of_ne hio, Function.update_self]
  exact w.erase_eq hl

/-- The move loop.  On the `OTHER_INDEX` list a moved block comes back to the
front: the cursor meets it again exactly when it was at the front already. -/
theorem moveLoop_spec {i : Nat} (hi' : i < count) :
    ∀ (n : Nat) (h : Heap) (L : Layout) (pre suf : List Nat),
      Inv lo hi h L 0 → L.list i = pre ++ suf →
      Heap.moveLoop n (slotOf i pre) h = .error .running ∨
        ∃ h' L', Heap.moveLoop n (slotOf i pre) h = .ok h' ∧
          Evolves lo hi h L h' L' 0 0 := by
  intro n
  induction n with
  | zero => intro h L pre suf _ _; exact .inl rfl
  | succ n ih =>
      intro h L pre suf I hl
      cases suf with
      | nil =>
          rw [List.append_nil] at hl
          refine .inr ⟨h, L, ?_, .refl I⟩
          simp only [Heap.moveLoop, I.read_nil hi' hl, if_true]
      | cons a post =>
          obtain ⟨b, hb, hf, hbi⟩ := I.get_listed hl
          rw [I.moveLoop_cons hi' hl hb]
          split
          · exact ih h L (pre ++ [a]) post I (by simpa using hl)
          · have e := Evolves.move I hl hb hf hbi
            -- where the cursor stands in the changed list
            have hcursor : ∃ pre' suf', slotOf i pre' = slotOf i pre ∧
                (L.move a b i).list i = pre' ++ suf' := by
              by_cases hio : i = otherIndex
              · subst hio
                have hlist := I.wf.move_list_other (b := b) hl
                by_cases hpre : pre = []
                · exact ⟨[], a :: post, by rw [hpre], by rw [hlist, hpre]; rfl⟩
                · exact ⟨a :: pre, post, slotOf_cons_of_ne_nil _ _ hpre, by rw [hlist]; rfl⟩
              · exact ⟨pre, post, rfl, I.wf.move_list_self hio hl⟩
            obtain ⟨pre', suf', hslot, hl'⟩ := hcursor
            have hrest := ih _ _ pre' suf' e.inv hl'
            rw [hslot] at hrest
            rcases hrest with hrun | ⟨h', L', hok, e'⟩
            · exact .inl hrun
            · exact .inr ⟨h', L', hok, e.trans e'⟩

/-- A pass over the first `n` lists evolves the heap when each list's pass
does. -/
theorem forLists_spec {pass : Nat → Heap → Except Fault Heap}
    (hpass : ∀ i, i < count → ∀ (h : Heap) (L : Layout), Inv lo hi h L 0 →
      pass i h = .error .running ∨ ∃ h' L', pass i h = .ok h' ∧ Evolves lo hi h L h' L' 0 0) :
    ∀ (n : Nat), n ≤ count → ∀ (h : Heap) (L : Layout), Inv lo hi h L 0 →
      Heap.forLists pass n h = .error .running ∨
        ∃ h' L', Heap.forLists pass n h = .ok h' ∧ Evolves lo hi h L h' L' 0 0 := by
  intro n
  induction n with
  | zero => intro _ h L I; exact .inr ⟨h, L, rfl, .refl I⟩
  | succ n ih =>
      intro hn h L I
      rcases ih (by omega) h L I with hrun | ⟨h₁, L₁, hok, e⟩
      · exact .inl (by simp [Heap.forLists, hrun, Except.bind])
      · rcases hpass n (by omega) h₁ L₁ e.inv with hrun | ⟨h₂, L₂, hok', e'⟩
        · exact .inl (by simp [Heap.forLists, hok, Except.bind, hrun])
        · exact .inr ⟨h₂, L₂, by simp [Heap.forLists, hok, Except.bind, hok'], e.trans e'⟩

/-- **Coalescing** keeps the heap well formed and every live block in place. -/
theorem coalesce_spec (bound : Nat) (I : Inv lo hi h L 0) :
    Heap.coalesce bound h = .error .running ∨
      ∃ h' L', Heap.coalesce bound h = .ok h' ∧ Evolves lo hi h L h' L' 0 0 := by
  have hmerge := @forLists_spec lo hi (Heap.coalesceMergeBlocks bound)
    (fun i hi' h L I => mergeLoop_spec hi' bound h L [] (L.list i) I rfl)
    (otherIndex + 1) (by decide)
  have hmove := @forLists_spec lo hi (Heap.coalesceMoveBlocks bound)
    (fun i hi' h L I => moveLoop_spec hi' bound h L [] (L.list i) I rfl)
    (otherIndex + 1) (by decide)
  rcases hmerge h L I with hrun | ⟨h₁, L₁, hok, e⟩
  · exact .inl (by simp [Heap.coalesce, hrun, Except.bind])
  · rcases hmove h₁ L₁ e.inv with hrun | ⟨h₂, L₂, hok', e'⟩
    · exact .inl (by simp [Heap.coalesce, hok, Except.bind, hrun])
    · exact .inr ⟨h₂, L₂, by simp [Heap.coalesce, hok, Except.bind, hok'], e.trans e'⟩

/-! ## §3. Size classes. -/

theorem scanSizes_spec {size mi hi : Nat} (hle : mi ≤ hi) (hsize : size ≤ allSizes hi) :
    scanSizes size mi hi ≤ hi ∧ size ≤ allSizes (scanSizes size mi hi) := by
  fun_induction scanSizes size mi hi with
  | case1 mi hmi hfit => exact ⟨hmi, hfit⟩
  | case2 mi hmi hfit ih =>
      have hne : mi ≠ hi := fun h => hfit (h ▸ hsize)
      exact ih (by omega)
  | case3 mi hmi => omega

theorem searchSizes_spec {size lo hi : Nat} (hle : lo ≤ hi) (hsize : size ≤ allSizes hi) :
    searchSizes size lo hi ≤ hi ∧ size ≤ allSizes (searchSizes size lo hi) := by
  fun_induction searchSizes size lo hi with
  | case1 lo hi hwin mi heq => exact ⟨by omega, le_of_eq heq⟩
  | case2 lo hi hwin mi hne hlt ih =>
      obtain ⟨h1, h2⟩ := ih (by omega) (le_of_lt hlt)
      exact ⟨by omega, h2⟩
  | case3 lo hi hwin mi hne hlt ih => exact ih (by omega) hsize
  | case4 lo hi hwin => exact scanSizes_spec hle hsize

/-- `find_index` of a size: a class of `blocks[]` whose blocks are
large enough. -/
theorem findIndex_spec {size : Nat} (hpos : 0 < size) (hlt : size < wordSize) :
    findIndex size < count ∧ (findIndex size < otherIndex → size ≤ allSizes (findIndex size)) := by
  have hsmall : ∀ i, i < 16 → allSizes i = 8 * (i + 1) := by decide
  unfold findIndex
  split
  next hle =>
    have hidx : smallIndex size = (size - 1) / 8 := by
      unfold smallIndex
      rw [sub32_eq (by omega) hlt, wordBytes]
    simp only [smallLimit, wordBytes] at hle
    rw [hidx]
    refine ⟨by simp only [count, smallBlocks, largeBlocks]; omega, fun _ => ?_⟩
    rw [hsmall _ (by omega)]
    omega
  next =>
    split
    next hle =>
      have hlast : size ≤ allSizes (otherIndex - 1) := le_trans hle (by decide)
      obtain ⟨h1, h2⟩ := @searchSizes_spec size smallBlocks _ (by decide) hlast
      exact ⟨lt_of_le_of_lt h1 (by decide), fun _ => h2⟩
    next => exact ⟨by decide, fun h => absurd h (lt_irrefl _)⟩

theorem blockAlign_eq {size : Nat} (h : size + 8 < wordSize) :
    blockAlign size = (size + 8) / 8 * 8 := by
  have hadd : add32 size wordBytes = size + 8 := add32_eq h
  rw [blockAlign, hadd]
  exact and_highMask (k := 3) h (by decide)

/-! ## §4. First fit. -/

/-- The first-fit loop: it finds nothing and changes nothing, or it hands out
a block that was free (or part of a free block) and is large enough. -/
theorem newBlockLoop_spec {size k : Nat} (hm : size % 4 = 0) (hk : k < count)
    (hcl : k < otherIndex → allSizes k ≤ size) :
    ∀ (n : Nat) (h : Heap) (L : Layout) (pre suf : List Nat),
      Inv lo hi h L 0 → L.list otherIndex = pre ++ suf →
      Heap.newBlockLoop size k n (slotOf otherIndex pre) h = .error .running ∨
      Heap.newBlockLoop size k n (slotOf otherIndex pre) h = .ok (0, h) ∨
      ∃ a b h' L', Heap.newBlockLoop size k n (slotOf otherIndex pre) h = .ok (a, h') ∧
        Evolves lo hi h L h' L' a a ∧ L'.blk a = some b ∧ b.free = false ∧
        size ≤ b.size ∧ ∀ c, L.blk a = some c → c.free = true := by
  intro n
  have hother : otherIndex < count := by decide
  induction n with
  | zero => intro h L pre suf _ _; exact .inl rfl
  | succ n ih =>
      intro h L pre suf I hl
      cases suf with
      | nil =>
          rw [List.append_nil] at hl
          refine .inr (.inl ?_)
          simp only [Heap.newBlockLoop, I.read_nil hother hl, if_true]
      -- the block at the head of what is left of the list
      | cons a post =>
          obtain ⟨b, hb, hf, hbi⟩ := I.get_listed hl
          have hread := I.read_cons hother hl
          have hsize := I.rep.size hb
          have hbound := I.wf.bound hb
          have htop := I.top
          have hane := I.ne_zero hb
          by_cases hfit : size ≤ b.size
          · have hsub : sub32 b.size size = b.size - size := sub32_eq hfit (by omega)
            by_cases hfrag : minFrag ≤ b.size - size
            · -- cut the request off the end of the block
              have hc : sub32 (add32 a b.size) size = a + b.size - size := by
                have hadd : add32 a b.size = a + b.size := add32_eq (by omega)
                rw [hadd, sub32_eq (by omega) (by omega)]
              have hstep : Heap.newBlockLoop size k (n + 1) (slotOf otherIndex pre) h
                  = .ok (a + b.size - size, splitHeap h a (a + b.size - size) size k) := by
                simp only [Heap.newBlockLoop, hread, hane, hsize, hfit, hsub, hfrag, hc,
                  if_true, if_false, splitHeap]
              have hn : size + minFrag ≤ b.size := by omega
              obtain ⟨hinv, hframe⟩ := I.split hb hf hbi rfl hn hm hk hcl
              simp only [minFrag, recSize, wordBytes] at hn
              have hnone : ∀ e, L.blk (a + b.size - size) ≠ some e := by
                intro e he
                have := I.wf.disjoint hb he
                omega
              refine .inr (.inr ⟨_, ⟨size, k, false⟩, _, _, hstep, ⟨hinv, hframe, ?_, ?_⟩,
                ?_, rfl, le_refl _, fun e he => absurd he (hnone e)⟩)
              · intro x e hx hxf
                simp only [Layout.split, Function.update_apply]
                grind
              · intro x e hx hxf
                simp only [Layout.split, Function.update_apply] at hx
                grind
              · simp only [Layout.split]
                rw [Function.update_of_ne (by omega), Function.update_self]
            · -- too small to split: take all
              have hstep : Heap.newBlockLoop size k (n + 1) (slotOf otherIndex pre) h
                  = .ok (a, (h.setIndex a k).write (slotOf otherIndex pre)
                      ((h.setIndex a k).next a)) := by
                simp only [Heap.newBlockLoop, hread, hane, hsize, hfit, hsub, hfrag,
                  if_true, if_false]
              obtain ⟨hinv, hframe⟩ := I.take hl hb hbi hk fun hlt => le_trans (hcl hlt) hfit
              refine .inr (.inr ⟨a, { b with index := k, free := false }, _, _, hstep,
                ⟨hinv, hframe, ?_, ?_⟩, ?_, rfl, hfit, fun c hc => ?_⟩)
              · intro x e hx hxf
                simp only [Layout.take, Function.update_apply]
                grind
              · intro x e hx hxf
                simp only [Layout.take, Function.update_apply] at hx
                grind
              · simp only [Layout.take, Function.update_self]
              · rw [hb] at hc
                cases hc
                exact hf
          · have hstep : Heap.newBlockLoop size k (n + 1) (slotOf otherIndex pre) h
                = Heap.newBlockLoop size k n (slotOf otherIndex (pre ++ [a])) h := by
              simp only [Heap.newBlockLoop, hread, hane, hsize, hfit, if_false, slotOf_concat]
            rw [hstep]
            exact ih h L (pre ++ [a]) post I (by simpa using hl)

/-- What `get_new_block` and `allocate` promise about the block they found. -/
def Handed (lo hi : Nat) (h : Heap) (L : Layout) (size a exc : Nat) (h' : Heap) : Prop :=
  ∃ b L', Evolves lo hi h L h' L' a exc ∧ L'.blk a = some b ∧ b.free = false ∧
    size ≤ b.size ∧ ∀ c, L.blk a = some c → c.free = true

/-- `get_new_block`: first fit, with one try after coalescing. -/
theorem getNewBlock_spec (bound : Nat) {size k : Nat} (I : Inv lo hi h L 0)
    (hm : size % 8 = 0) (hk : k < count) (hcl : k < otherIndex → size ≤ allSizes k) :
    Heap.getNewBlock bound size k h = .error .running ∨
      (∃ h' L', Heap.getNewBlock bound size k h = .ok (0, h') ∧
        Evolves lo hi h L h' L' 0 0) ∨
      ∃ a h', Heap.getNewBlock bound size k h = .ok (a, h') ∧ a ≠ 0 ∧
        Handed lo hi h L size a a h' := by
  -- the size asked of the list: the class size, except for the last class
  set n := if k ≠ otherIndex then allSizes k else size with hn
  have hclasses : ∀ i, i < otherIndex → allSizes i % 4 = 0 := by decide
  have hkn : k ≠ otherIndex → k < otherIndex := by
    simp only [count, otherIndex] at hk ⊢
    omega
  have hn4 : n % 4 = 0 := by
    rw [hn]
    split
    next hne => exact hclasses k (hkn hne)
    next => omega
  have hsize : size ≤ n := by
    rw [hn]
    split
    next hne => exact hcl (hkn hne)
    next => exact le_refl _
  have hclass : k < otherIndex → allSizes k ≤ n := by
    intro hlt
    rw [hn, if_pos (by omega)]
  have hfind := fun (h : Heap) (L : Layout) (I : Inv lo hi h L 0) =>
    newBlockLoop_spec hn4 hk hclass bound h L [] (L.list otherIndex) I rfl
  have hunfold : Heap.getNewBlock bound size k h
      = (Heap.getNewBlockInternal bound n k h).bind fun r =>
          if r.1 ≠ 0 then .ok (r.1, r.2)
          else (Heap.coalesce bound r.2).bind (Heap.getNewBlockInternal bound n k) := rfl
  have hinternal : ∀ h, Heap.getNewBlockInternal bound n k h
      = Heap.newBlockLoop n k bound (slotOf otherIndex []) h := fun _ => rfl
  rw [hunfold, hinternal]
  rcases hfind h L I with hrun | hnone | ⟨a, b, h', L', hok, e, hb, hf, hle, hwas⟩
  · exact .inl (by rw [hrun]; rfl)
  · rw [hnone]
    simp only [Except.bind, ne_eq, not_true, if_false]
    rcases coalesce_spec bound I with hrun | ⟨h₁, L₁, hok₁, e₁⟩
    · exact .inl (by rw [hrun])
    · simp only [hok₁, hinternal]
      rcases hfind h₁ L₁ e₁.inv with hrun | hnone' | ⟨a, b, h', L', hok, e, hb, hf, hle, hwas⟩
      · exact .inl hrun
      · exact .inr (.inl ⟨h₁, L₁, hnone', e₁⟩)
      · refine .inr (.inr ⟨a, h', hok, e.inv.ne_zero hb, b, L', e₁.trans e, hb, hf,
          le_trans hsize hle, fun c hc => ?_⟩)
        cases hcf : c.free with
        | true => rfl
        | false => rw [← hcf]; exact hwas c (e₁.keep hc hcf)
  · rw [hok]
    simp only [Except.bind, ne_eq, e.inv.ne_zero hb, not_false_eq_true, if_true]
    exact .inr (.inr ⟨a, h', rfl, e.inv.ne_zero hb, b, L', e, hb, hf, le_trans hsize hle, hwas⟩)

/-! ## §5. `allocate`. -/

/-- The end of `allocate` turns a handed block into an allocated one. -/
theorem Handed.finish {size a : Nat} {h' : Heap} (H : Handed lo hi h L size a a h') :
    (Heap.finishAllocate a h').1 = a + 16 ∧
      Handed lo hi h L size a 0 (Heap.finishAllocate a h').2 := by
  obtain ⟨b, L', e, hb, hf, hle, hwas⟩ := H
  obtain ⟨hp, hinv, hframe⟩ := e.inv.finish hb hf
  refine ⟨hp, b, L', ⟨hinv, ?_, e.keep, e.fresh⟩, hb, hf, hle, hwas⟩
  exact e.frame.trans (hframe.mono fun _ _ hc hcf => e.keep hc hcf)

/-- `allocate` where the index names a list. -/
theorem allocate_eq (bound : Nat) {size : Nat} (h : Heap) (hpos : 0 < size)
    (hk : findIndex (blockAlign size) < count) :
    Heap.allocate bound size h
      = if h.blocks (findIndex (blockAlign size)) = 0 ∨
            findIndex (blockAlign size) = otherIndex then
          (Heap.getNewBlock bound (blockAlign size) (findIndex (blockAlign size)) h).bind fun r =>
            if r.1 = 0 then .ok (0, r.2) else .ok (Heap.finishAllocate r.1 r.2)
        else .ok (Heap.finishAllocate (h.blocks (findIndex (blockAlign size)))
          (h.setBlocks (findIndex (blockAlign size))
            (h.next (h.blocks (findIndex (blockAlign size)))))) := by
  unfold Heap.allocate
  rw [if_neg (by omega)]
  simp only [Heap.getBlocks, if_pos hk, Except.bind]

/-- **`allocate` on a well-formed heap**: it runs on, fails with the heap
well formed, or returns the payload of a block that was not allocated and
has room for the request. -/
theorem allocate_spec (bound : Nat) {size : Nat} (I : Inv lo hi h L 0) (hpos : 0 < size)
    (hwrap : size + 8 < wordSize) :
    Heap.allocate bound size h = .error .running ∨
      (∃ h' L', Heap.allocate bound size h = .ok (0, h') ∧ Evolves lo hi h L h' L' 0 0) ∨
      ∃ a h', Heap.allocate bound size h = .ok (a + 16, h') ∧
        Handed lo hi h L size a 0 h' := by
  set n := blockAlign size with hn
  have hnval : n = (size + 8) / 8 * 8 := blockAlign_eq hwrap
  have hn8 : 0 < n ∧ n % 8 = 0 ∧ n < wordSize := by omega
  obtain ⟨hk, hclass⟩ := findIndex_spec hn8.1 hn8.2.2
  set k := findIndex n with hkdef
  have hle : size ≤ n := by omega
  rw [allocate_eq bound h hpos hk, ← hn, ← hkdef]
  split
  next =>
    rcases getNewBlock_spec bound I (by omega) hk hclass with
      hrun | ⟨h', L', hok, e⟩ | ⟨a, h', hok, hne, H⟩
    · exact .inl (by rw [hrun]; rfl)
    · refine .inr (.inl ⟨h', L', ?_, e⟩)
      simp only [hok, Except.bind, if_true]
    · obtain ⟨hp, b, L', e, hb, hf, hsz, hwas⟩ := H.finish
      refine .inr (.inr ⟨a, _, ?_, b, L', e, hb, hf, le_trans hle hsz, hwas⟩)
      simp only [hok, Except.bind, if_neg hne]
      rw [← hp]
  next hhead =>
    -- the head of the size class is taken
    simp only [not_or] at hhead
    have hchain := I.rep.chain k hk
    cases hlist : L.list k with
    | nil => rw [hlist] at hchain; exact absurd hchain hhead.1
    | cons a post =>
        rw [hlist] at hchain
        have ha : h.blocks k = a := hchain.1
        obtain ⟨b, hb, hf, hbk⟩ := I.wf.listed.mp (show a ∈ L.list k by simp [hlist])
        have hinv := I.pop hlist hb hbk
        have hcls : allSizes k ≤ b.size := by
          rw [← hbk]
          refine I.wf.classLe hb ?_
          rw [hbk]
          have := hhead.2
          simp only [count, otherIndex] at *
          omega
        have hroom : n ≤ b.size := by
          refine le_trans (hclass ?_) hcls
          have := hhead.2
          simp only [count, otherIndex] at *
          omega
        have H : Handed lo hi h L n a a (h.setBlocks k (h.next a)) := by
          refine ⟨{ b with index := k, free := false }, L.take a b k k,
            ⟨hinv, (Frame.refl L h).setBlocks _ _, ?_, ?_⟩, ?_, rfl, hroom, fun c hc => ?_⟩
          · intro x e hx hxf
            simp only [Layout.take, Function.update_apply]
            grind
          · intro x e hx hxf
            simp only [Layout.take, Function.update_apply] at hx
            grind
          · simp only [Layout.take, Function.update_self]
          · rw [hb] at hc
            cases hc
            exact hf
        obtain ⟨hp, b', L', e, hb', hf', hsz, hwas⟩ := H.finish
        refine .inr (.inr ⟨a, _, ?_, b', L', e, hb', hf', le_trans hle hsz, hwas⟩)
        rw [ha, ← hp]

end Metta.HeapMod
