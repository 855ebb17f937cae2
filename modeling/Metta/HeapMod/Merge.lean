/-
  Metta.HeapMod.Merge — the merge pass of `coalesce`.

  The pass absorbs free blocks one at a time in the order of the lists.  What is
  left does not depend on the order: a block survives exactly if it is the first
  of a maximal run of adjacent free blocks, and has then the size of the run.

    • `FreeRun`, `Settled`, `MaxRun` — runs of free blocks,
    • `Merged` — what any number of merges have done to a layout,
    • `mergeLoop_merged`, `mergePass_merged` — the loop and the pass, which return,
    • `merge_pass_complete` — the heap after the pass.
-/
import Metta.HeapMod.Run
import Metta.Machine.Outcome

namespace Metta.HeapMod

open Metta.Machine

variable {lo hi : Nat} {h : Heap} {L L₁ L₂ : Layout}

/-! ## §1. Runs of free blocks. -/

/-- From `a` to `e` there are only free blocks, one right behind the other. -/
inductive FreeRun (L : Layout) : Nat → Nat → Prop where
  | nil (a : Nat) : FreeRun L a a
  | cons {a e : Nat} {b : Blk} (hb : L.blk a = some b) (hf : b.free = true)
      (hrest : FreeRun L (a + recSize + b.size) e) : FreeRun L a e

/-- No free block ends right before `a`. -/
def Settled (L : Layout) (a : Nat) : Prop :=
  ∀ p d, L.blk p = some d → d.free = true → p + recSize + d.size ≠ a

/-- **A maximal run of adjacent free blocks** from `a` on: `n` is the size of all of them
together, with the records between them. -/
structure MaxRun (L : Layout) (a n : Nat) : Prop where
  run : FreeRun L a (a + recSize + n)
  first : Settled L a
  last : ∀ b, L.blk (a + recSize + n) = some b → b.free = false

theorem FreeRun.trans {a c e : Nat} (h : FreeRun L a c) (h' : FreeRun L c e) : FreeRun L a e := by
  induction h with
  | nil => exact h'
  | cons hb hf _ ih => exact .cons hb hf (ih h')

theorem FreeRun.single {a : Nat} {b : Blk} (hb : L.blk a = some b) (hf : b.free = true) :
    FreeRun L a (a + recSize + b.size) :=
  .cons hb hf (.nil _)

theorem FreeRun.le {a e : Nat} (h : FreeRun L a e) : a ≤ e := by
  induction h with
  | nil => exact le_rfl
  | cons hb hf _ ih => omega

/-- A run that is not empty begins with a free block. -/
theorem FreeRun.head {a e : Nat} (h : FreeRun L a e) (hne : a ≠ e) :
    ∃ b, L.blk a = some b ∧ b.free = true ∧ FreeRun L (a + recSize + b.size) e := by
  cases h with
  | nil => exact absurd rfl hne
  | cons hb hf hrest => exact ⟨_, hb, hf, hrest⟩

/-- A run that is not empty ends with a free block. -/
theorem FreeRun.last {a e : Nat} (h : FreeRun L a e) (hne : a ≠ e) :
    ∃ p d, L.blk p = some d ∧ d.free = true ∧ p + recSize + d.size = e := by
  induction h with
  | nil => exact absurd rfl hne
  | @cons a e b hb hf hrest ih =>
      by_cases he : a + recSize + b.size = e
      · exact ⟨a, b, hb, hf, he⟩
      · exact ih he

/-- Two runs from one place: one of them goes on from the end of the other. -/
theorem FreeRun.compare {a c e : Nat} (h : FreeRun L a c) (h' : FreeRun L a e) :
    FreeRun L c e ∨ FreeRun L e c := by
  induction h with
  | nil => exact .inl h'
  | @cons a c b hb hf hrest ih =>
      by_cases hae : a = e
      · subst hae
        exact .inr (.cons hb hf hrest)
      · obtain ⟨b', hb', -, hrest'⟩ := h'.head hae
        rw [hb] at hb'
        cases hb'
        exact ih hrest'

/-- A block within the extent of a run is one of its blocks: it is the first, or a free block ends
right before it. -/
theorem FreeRun.meets (w : WF lo hi L) {a c e : Nat} {b : Blk} (h : FreeRun L c e)
    (hb : L.blk a = some b) (hle : c ≤ a) (hlt : a < e) :
    c = a ∨ ∃ p d, L.blk p = some d ∧ d.free = true ∧ p + recSize + d.size = a := by
  induction h with
  | nil => omega
  | @cons c e d hd hf hrest ih =>
      rcases w.disjoint hd hb with rfl | hdis | hdis
      · exact .inl rfl
      · simp only [recSize] at ih
        rcases ih (by omega) hlt with hca | hp
        · exact .inr ⟨c, d, hd, hf, hca⟩
        · exact .inr hp
      · omega

/-- The maximal run from an address is one only. -/
theorem MaxRun.unique {a n m : Nat} (h : MaxRun L a n) (h' : MaxRun L a m) : n = m := by
  have hstop : ∀ {n m : Nat}, MaxRun L a n → FreeRun L (a + recSize + n) (a + recSize + m) →
      n = m := by
    intro n m hn hrun
    by_contra hne
    obtain ⟨b, hb, hf, -⟩ := hrun.head (by omega)
    rw [hn.last b hb] at hf
    cases hf
  rcases h.run.compare h'.run with hrun | hrun
  · exact hstop h hrun
  · exact (hstop h' hrun).symm

/-! ## §2. Merges. -/

/-- **What merges have done** to a layout: allocated blocks are as before; a free block is a run
of former free blocks, with the index of the first; every former free block is in one; and the
lists have kept their order. -/
structure Merged (L L' : Layout) : Prop where
  alloc : ∀ {a b}, b.free = false → (L'.blk a = some b ↔ L.blk a = some b)
  run : ∀ {a b}, L'.blk a = some b → b.free = true →
    FreeRun L a (a + recSize + b.size) ∧ ∃ c, L.blk a = some c ∧ c.index = b.index
  covered : ∀ {a b}, L.blk a = some b → b.free = true → ∃ c d, L'.blk c = some d ∧
    d.free = true ∧ c ≤ a ∧ a + recSize + b.size ≤ c + recSize + d.size
  list : ∀ i, L'.list i = (L.list i).filter fun a => (L'.blk a).isSome

theorem WF.isSome_of_mem (w : WF lo hi L) {i a : Nat} (ha : a ∈ L.list i) :
    (L.blk a).isSome = true := by
  obtain ⟨b, hb, -⟩ := w.listed.mp ha
  rw [hb]
  rfl

theorem Merged.refl (w : WF lo hi L) : Merged L L where
  alloc _ := Iff.rfl
  run hb hf := ⟨.single hb hf, _, hb, rfl⟩
  covered hb hf := ⟨_, _, hb, hf, le_rfl, le_rfl⟩
  list _ := (List.filter_eq_self.mpr fun _ ha => w.isSome_of_mem ha).symm

/-- A run of merged blocks is a run of the blocks they were merged from. -/
theorem Merged.freeRun (m : Merged L L₁) {a e : Nat} (h : FreeRun L₁ a e) : FreeRun L a e := by
  induction h with
  | nil => exact .nil _
  | cons hb hf _ ih => exact (m.run hb hf).1.trans ih

/-- What is a block afterwards was one before. -/
theorem Merged.isSome (m : Merged L L₁) {a : Nat} (ha : (L₁.blk a).isSome = true) :
    (L.blk a).isSome = true := by
  obtain ⟨b, hb⟩ := Option.isSome_iff_exists.mp ha
  cases hf : b.free with
  | false => rw [(m.alloc hf).mp hb]; rfl
  | true =>
      obtain ⟨-, c, hc, -⟩ := m.run hb hf
      rw [hc]
      rfl

theorem Merged.trans (m : Merged L L₁) (m' : Merged L₁ L₂) : Merged L L₂ where
  alloc hf := (m'.alloc hf).trans (m.alloc hf)
  run hb hf := by
    obtain ⟨hrun, c, hc, hci⟩ := m'.run hb hf
    refine ⟨m.freeRun hrun, ?_⟩
    have hcf : c.free = true := by
      obtain ⟨c', hc', hcf, -⟩ := hrun.head (by simp only [recSize]; omega)
      rw [hc] at hc'
      cases hc'
      exact hcf
    obtain ⟨-, d, hd, hdi⟩ := m.run hc hcf
    exact ⟨d, hd, hdi.trans hci⟩
  covered hb hf := by
    obtain ⟨c, d, hc, hcf, hle, hend⟩ := m.covered hb hf
    obtain ⟨c', d', hc', hcf', hle', hend'⟩ := m'.covered hc hcf
    exact ⟨c', d', hc', hcf', hle'.trans hle, hend.trans hend'⟩
  list i := by
    rw [m'.list i, m.list i, List.filter_filter]
    refine List.filter_congr fun a _ => ?_
    cases hsome : (L₂.blk a).isSome with
    | false => rfl
    | true => rw [m'.isSome hsome]; rfl

/-- One merge. -/
theorem WF.merged (w : WF lo hi L) {p a i : Nat} {d b : Blk} (hp : L.blk p = some d)
    (hpf : d.free = true) (hb : L.blk a = some b) (hf : b.free = true)
    (hbi : b.index = i) (hpa : p + 16 + d.size = a) : Merged L (L.merge p d a b i) := by
  have hblk : ∀ x, (L.merge p d a b i).blk x = if x = a then none
      else if x = p then some { d with size := d.size + b.size + recSize } else L.blk x := by
    intro x
    simp only [Layout.merge, Function.update_apply]
  have hpne : p ≠ a := by omega
  refine ⟨?_, ?_, ?_, ?_⟩
  · -- blocks in use are not touched
    intro x c hc
    rw [hblk]
    split_ifs with hxa hxp
    · subst hxa
      constructor
      · intro h'
        cases h'
      · intro h'
        rw [hb] at h'
        cases h'
        rw [hf] at hc
        cases hc
    · subst hxp
      constructor
      · intro h'
        cases h'
        rw [hpf] at hc
        cases hc
      · intro h'
        rw [hp] at h'
        cases h'
        rw [hpf] at hc
        cases hc
    · exact Iff.rfl
  · -- each free block is a run of free blocks of before
    intro x c hx hc
    rw [hblk] at hx
    split_ifs at hx with hxa hxp
    · cases hx
      subst hxp
      refine ⟨.cons hp hpf ?_, d, hp, rfl⟩
      have hat : x + recSize + d.size = a := hpa
      rw [hat, show x + recSize + (d.size + b.size + recSize) = a + recSize + b.size by omega]
      exact .single hb hf
    · exact ⟨.single hx hc, c, hx, rfl⟩
  · -- and each free block of before is inside of one
    intro x c hx hc
    have hgrown : (L.merge p d a b i).blk p
        = some { d with size := d.size + b.size + recSize } := by
      rw [hblk, if_neg hpne, if_pos rfl]
    by_cases hxa : x = a
    · subst hxa
      rw [hb] at hx
      cases hx
      refine ⟨p, _, hgrown, hpf, by omega, ?_⟩
      simp only [recSize]
      omega
    · by_cases hxp : x = p
      · subst hxp
        rw [hp] at hx
        cases hx
        refine ⟨x, _, hgrown, hpf, le_rfl, ?_⟩
        simp only
        omega
      · exact ⟨x, c, by rw [hblk, if_neg hxa, if_neg hxp, hx], hc, le_rfl, le_rfl⟩
  · -- only the merged block leaves its list
    intro j
    have hkeep : ∀ x ∈ L.list j, ((L.merge p d a b i).blk x).isSome = (x != a) := by
      intro x hx
      have hsome := w.isSome_of_mem hx
      rw [hblk]
      split_ifs with hxa hxp
      · simp [hxa]
      · simp [hxa]
      · rw [hsome]
        exact (bne_iff_ne.mpr hxa).symm
    rw [List.filter_congr hkeep]
    simp only [Layout.merge, Function.update_apply]
    split
    · next hji => rw [hji, (w.nodup i).erase_eq_filter]
    · next hji =>
      refine (List.filter_eq_self.mpr fun x hx => bne_iff_ne.mpr ?_).symm
      rintro rfl
      obtain ⟨b', hb', -, hbj⟩ := w.listed.mp hx
      rw [hb] at hb'
      cases hb'
      exact hji (hbj.symm.trans hbi)

/-- Merging makes no block unsettled. -/
theorem Settled.merge {p a i c : Nat} {d b : Blk} (hc : Settled L c) (hb : L.blk a = some b)
    (hf : b.free = true) (hpa : p + 16 + d.size = a) : Settled (L.merge p d a b i) c := by
  intro q e hq hqf
  simp only [Layout.merge, Function.update_apply] at hq
  split_ifs at hq with hqa hqp
  · cases hq
    have := hc a b hb hf
    simp only [recSize] at this ⊢
    omega
  · exact hc q e hq hqf

/-- A block with the magic before it is settled: sizes are no magic. -/
theorem Inv.settled (I : Inv lo hi h L 0) {a : Nat} (htag : h.prev a = heapMagic) :
    Settled L a := by
  rintro p d hp hpf rfl
  have hat := I.rep.tag hp (I.ne_zero hp)
  have hmul := I.wf.sizeMul hp
  rw [hpf, if_pos rfl] at hat
  have hmagic : d.size = heapMagic := hat.symm.trans htag
  rw [hmagic] at hmul
  exact absurd hmul (by decide)

/-! ## §3. The pass. -/

/-- A list has fewer blocks than the area has bytes. -/
theorem WF.length_list_le (w : WF lo hi L) (i : Nat) : (L.list i).length ≤ hi - lo := by
  have hsub : (L.list i).toFinset ⊆ Finset.Ico lo hi := by
    intro a ha
    obtain ⟨b, hb, -⟩ := w.listed.mp (List.mem_toFinset.mp ha)
    have := w.bound hb
    exact Finset.mem_Ico.mpr ⟨this.1, by omega⟩
  calc (L.list i).length = (L.list i).toFinset.card := (List.toFinset_card_of_nodup (w.nodup i)).symm
    _ ≤ (Finset.Ico lo hi).card := Finset.card_le_card hsub
    _ = hi - lo := Nat.card_Ico lo hi

/-- What a pass over some lists has done: it merged, and settled the blocks of these lists. -/
structure Passed (lo hi : Nat) (h : Heap) (L : Layout) (h' : Heap) (L' : Layout) : Prop where
  evolves : Evolves lo hi h L h' L' 0 0
  merged : Merged L L'
  settled : ∀ {c}, Settled L c → Settled L' c

theorem Passed.trans {h₁ h₂ : Heap} (p : Passed lo hi h L h₁ L₁) (p' : Passed lo hi h₁ L₁ h₂ L₂) :
    Passed lo hi h L h₂ L₂ :=
  ⟨p.evolves.trans p'.evolves, p.merged.trans p'.merged, fun hc => p'.settled (p.settled hc)⟩

theorem Inv.passed (I : Inv lo hi h L 0) : Passed lo hi h L h L :=
  ⟨.refl I, .refl I.wf, id⟩

/-- **The merge loop returns**, and the blocks that stay on its list are settled. -/
theorem mergeLoop_merged {i : Nat} (hi' : i < count) :
    ∀ (suf : List Nat) (n : Nat) (h : Heap) (L : Layout) (pre : List Nat), suf.length < n →
      Inv lo hi h L 0 → L.list i = pre ++ suf → (∀ c ∈ pre, Settled L c) →
      ∃ h' L', Heap.mergeLoop n (slotOf i pre) h = .ok h' ∧ Passed lo hi h L h' L' ∧
        ∀ c ∈ L'.list i, Settled L' c := by
  intro suf
  induction suf with
  | nil =>
      intro n h L pre hn I hl hpre
      rw [List.append_nil] at hl
      obtain ⟨n, rfl⟩ : ∃ m, n = m + 1 := ⟨n - 1, by omega⟩
      refine ⟨h, L, ?_, I.passed, hl ▸ hpre⟩
      simp only [Heap.mergeLoop, I.read_nil hi' hl, if_true]
  | cons a post ih =>
      intro n h L pre hn I hl hpre
      simp only [List.length_cons] at hn
      obtain ⟨n, rfl⟩ : ∃ m, n = m + 1 := ⟨n - 1, by omega⟩
      rcases I.mergeLoop_cons hi' hl n with
        ⟨htag, hstep⟩ | ⟨p, d, b, hp, hpf, hb, hf, hbi, hpa, hstep⟩
      · rw [hstep]
        refine ih n h L (pre ++ [a]) (by omega) I (by simpa using hl) fun c hc => ?_
        rcases List.mem_append.mp hc with hc | hc
        · exact hpre c hc
        · exact List.mem_singleton.mp hc ▸ I.settled htag
      · have hpass : Passed lo hi h L (mergeHeap h (slotOf i pre) p a) (L.merge p d a b i) :=
          ⟨.merge I hl hp hpf hb hf hpa hbi, I.wf.merged hp hpf hb hf hbi hpa,
            fun hc => hc.merge hb hf hpa⟩
        have hl' : (L.merge p d a b i).list i = pre ++ post := by
          simp only [Layout.merge, Function.update_self]
          exact I.wf.erase_eq hl
        obtain ⟨h', L', hok, hpass', hset⟩ := ih n _ _ pre (by omega) hpass.evolves.inv hl'
          fun c hc => hpass.settled (hpre c hc)
        exact ⟨h', L', hstep.trans hok, hpass.trans hpass', hset⟩

/-- A larger bound changes nothing about a loop that returns. -/
theorem mergeLoop_mono {n m : Nat} {s : Heap.Slot} {h' : Heap} (hnm : n ≤ m)
    (h₀ : Heap.mergeLoop n s h = .ok h') : Heap.mergeLoop m s h = .ok h' := by
  induction n generalizing m s h with
  | zero => cases h₀
  | succ n ih =>
      obtain ⟨m, rfl⟩ : ∃ k, m = k + 1 := ⟨m - 1, by omega⟩
      simp only [Heap.mergeLoop] at h₀ ⊢
      split_ifs at h₀ ⊢ with hnull htag hsane
      · exact h₀
      · exact ih (by omega) h₀
      · exact ih (by omega) h₀

theorem forLists_mono {pass pass' : Nat → Heap → Except Fault Heap} {n : Nat} {h' : Heap}
    (hpass : ∀ i h r, pass i h = .ok r → pass' i h = .ok r)
    (h₀ : Heap.forLists pass n h = .ok h') : Heap.forLists pass' n h = .ok h' := by
  induction n generalizing h' with
  | zero => exact h₀
  | succ n ih =>
      obtain ⟨h₁, hok, hlast⟩ := bind_eq_ok.mp h₀
      exact bind_eq_ok.mpr ⟨h₁, ih hok, hpass n h₁ h' hlast⟩

/-- **The merge pass returns**, over any number of the lists. -/
theorem mergePass_merged {bound : Nat} (hbound : hi - lo < bound) (I : Inv lo hi h L 0) :
    ∀ n ≤ count, ∃ h' L', Heap.forLists (Heap.coalesceMergeBlocks bound) n h = .ok h' ∧
      Passed lo hi h L h' L' ∧ ∀ i < n, ∀ c ∈ L'.list i, Settled L' c := by
  intro n
  induction n with
  | zero =>
      intro _
      exact ⟨h, L, rfl, I.passed, fun i hi' => by omega⟩
  | succ n ih =>
      intro hn
      obtain ⟨h₁, L₁, hok, hpass, hset⟩ := ih (by omega)
      have w := hpass.evolves.inv.wf
      obtain ⟨h₂, L₂, hok', hpass', hset'⟩ := mergeLoop_merged (show n < count by omega)
        (L₁.list n) bound h₁ L₁ [] ((w.length_list_le n).trans_lt hbound) hpass.evolves.inv rfl
        fun c hc => by cases hc
      refine ⟨h₂, L₂, ?_, hpass.trans hpass', fun i hin c hc => ?_⟩
      · rw [Heap.forLists, hok]
        exact hok'
      · rcases Nat.lt_succ_iff_lt_or_eq.mp hin with hlt | rfl
        · rw [hpass'.merged.list i] at hc
          exact hpass'.settled (hset i hlt c (List.mem_filter.mp hc).1)
        · exact hset' c hc

/-! ## §4. The heap after the pass. -/

/-- No free block is right behind a free block. -/
def Coalesced (L : Layout) : Prop := ∀ a b, L.blk a = some b → b.free = true → Settled L a

/-- Where all free blocks are settled, they are the maximal runs of what they were merged from. -/
theorem Merged.blk_iff (m : Merged L L₁) (w : WF lo hi L) (w' : WF lo hi L₁) (hset : Coalesced L₁)
    {a n : Nat} : (∃ i, L₁.blk a = some ⟨n, i, true⟩) ↔ MaxRun L a n := by
  have hmax : ∀ {a n i}, L₁.blk a = some ⟨n, i, true⟩ → MaxRun L a n := by
    intro a n i ha
    refine ⟨(m.run ha rfl).1, ?_, ?_⟩
    · rintro p d hp hpf rfl
      -- the block that covers `p` ends at `a`
      obtain ⟨c, e, hc, hcf, hle, hend⟩ := m.covered hp hpf
      have hdis := w'.disjoint hc ha
      simp only [recSize] at *
      refine hset _ _ ha rfl c e hc hcf ?_
      simp only [recSize]
      omega
    · intro b hb
      cases hbf : b.free with
      | false => rfl
      | true =>
          obtain ⟨c, e, hc, hcf, hle, hend⟩ := m.covered hb hbf
          have hsettled := hset c e hc hcf a _ ha rfl
          simp only [recSize] at hle hend hsettled
          rcases w'.disjoint ha hc with rfl | hdis | hdis
          · rw [ha] at hc
            cases hc
            simp only at hend
            omega
          · simp only at hdis
            omega
          · omega
  constructor
  · rintro ⟨i, ha⟩
    exact hmax ha
  · intro hrun
    obtain ⟨b, hb, hf, -⟩ := hrun.run.head (by simp only [recSize]; omega)
    obtain ⟨c, e, hc, hcf, hle, hend⟩ := m.covered hb hf
    -- the block that covers `a` begins there, for no free block is before `a`
    obtain rfl : c = a := by
      have hlt : a < c + recSize + e.size := by
        simp only [recSize] at hend ⊢
        omega
      rcases (m.run hc hcf).1.meets w hb hle hlt with hca | ⟨p, d, hp, hpf, hpa⟩
      · exact hca
      · exact absurd hpa (hrun.first p d hp hpf)
    obtain ⟨size, i, free⟩ := e
    simp only at hcf
    subst hcf
    exact ⟨i, (hmax hc).unique hrun ▸ hc⟩

/-- **The merge pass of `coalesce` over all lists is complete and harmless**, for every heap with
the invariant: it returns; no two free blocks are adjacent afterwards; allocated blocks are what
they were; the free blocks are the maximal runs of the former ones, whatever the order of the
lists was; every byte of a former free block or its record is in exactly one free block; and
every free block is on exactly one list, once. -/
theorem merge_pass_complete (I : Inv lo hi h L 0) :
    ∃ h' L', (∀ bound, hi - lo < bound →
        Heap.forLists (Heap.coalesceMergeBlocks bound) (otherIndex + 1) h = .ok h') ∧
      Inv lo hi h' L' 0 ∧
      (∀ a b c d, L'.blk a = some b → b.free = true → L'.blk c = some d → d.free = true →
        a + recSize + b.size ≠ c) ∧
      (∀ a b, b.free = false → (L'.blk a = some b ↔ L.blk a = some b)) ∧
      (∀ a n, (∃ i, L'.blk a = some ⟨n, i, true⟩) ↔ MaxRun L a n) ∧
      (∀ x, (∃ a b, L.blk a = some b ∧ b.free = true ∧ a ≤ x ∧ x < a + recSize + b.size) →
        ∃! a, ∃ b, L'.blk a = some b ∧ b.free = true ∧ a ≤ x ∧ x < a + recSize + b.size) ∧
      ∀ a b, L'.blk a = some b → b.free = true →
        (∃! i, a ∈ L'.list i) ∧ ∀ i, (L'.list i).count a ≤ 1 := by
  obtain ⟨h', L', hok, ⟨e, m, -⟩, hset⟩ :=
    mergePass_merged (lt_add_one (hi - lo)) I (otherIndex + 1) (by decide)
  have w' := e.inv.wf
  have hcoalesced : Coalesced L' := fun a b hb hf =>
    hset b.index (w'.indexLt hb) a (w'.listed.mpr ⟨b, hb, hf, rfl⟩)
  refine ⟨h', L', fun bound hbound => ?_, e.inv, ?_, fun a b hf => m.alloc hf,
    fun a n => m.blk_iff I.wf w' hcoalesced, ?_, ?_⟩
  · exact forLists_mono (fun i h r => mergeLoop_mono hbound) hok
  · rintro a b c d hb hf hd hdf rfl
    exact hcoalesced _ d hd hdf a b hb hf rfl
  · -- the blocks do not overlap, so a byte is in one of them only
    rintro x ⟨a, b, hb, hf, hle, hlt⟩
    obtain ⟨c, d, hc, hcf, hle', hend⟩ := m.covered hb hf
    refine ⟨c, ⟨d, hc, hcf, hle'.trans hle, hlt.trans_le hend⟩, ?_⟩
    rintro c' ⟨d', hc', -, hle'', hlt''⟩
    have hdis := w'.disjoint hc' hc
    simp only [recSize] at *
    omega
  · intro a b hb hf
    refine ⟨⟨b.index, w'.listed.mpr ⟨b, hb, hf, rfl⟩, ?_⟩, fun i => ?_⟩
    · intro i hmem
      obtain ⟨b', hb', -, hbi⟩ := w'.listed.mp hmem
      rw [hb] at hb'
      cases hb'
      exact hbi.symm
    · exact List.nodup_iff_count_le_one.mp (w'.nodup i) a

/-- Two blocks are allocated and given back: three adjacent blocks are free. -/
theorem merge_pass_complete_small_run :
    ∃ w L h' L', Run smallWorld [.allocate 1, .allocate 9, .free 0x10e8, .free 0x10c8] w ∧
      Inv 0x1010 0x10f0 w.heap L 0 ∧ Inv 0x1010 0x10f0 h' L' 0 ∧
      Heap.forLists (Heap.coalesceMergeBlocks 0xe1) (otherIndex + 1) w.heap = .ok h' ∧
      ∀ a n, (∃ i, L'.blk a = some ⟨n, i, true⟩) ↔ MaxRun L a n := by
  have h₁ : Step smallWorld (.allocate 1) (smallWorld.after (.allocate 1)) :=
    ⟨by decide, 8, rfl⟩
  have h₂ : Step (smallWorld.after (.allocate 1)) (.allocate 9) _ := ⟨by decide, 8, rfl⟩
  have h₃ : Step ((smallWorld.after (.allocate 1)).after (.allocate 9)) (.free 0x10e8) _ :=
    ⟨by decide +kernel, 8, rfl⟩
  have h₄ : Step (((smallWorld.after (.allocate 1)).after (.allocate 9)).after (.free 0x10e8))
      (.free 0x10c8) _ := ⟨by decide +kernel, 8, rfl⟩
  have hrun := (((Run.nil.snoc h₁).snoc h₂).snoc h₃).snoc h₄
  have hfits : ∀ c ∈ [Call.allocate 1, .allocate 9, .free 0x10e8, .free 0x10c8], c.Fits := by
    simp [Call.Fits, wordBytes, wordSize]
  obtain ⟨L, W⟩ := run_inv smallWorld_starts hrun hfits
  obtain ⟨h', L', hok, hinv, -, -, hruns, -⟩ := merge_pass_complete W.inv
  exact ⟨_, L, h', L', hrun, W.inv, hinv, hok _ (by decide), hruns⟩

end Metta.HeapMod
