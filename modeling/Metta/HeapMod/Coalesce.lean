/-
  Metta.HeapMod.Coalesce — when `coalesce` returns, and when `allocate` fails.

  The move pass puts a block whose list is not that of its size in front of the
  `OTHER_INDEX` list.  When it walks that list and its first block is a small one,
  it puts the block back in front of itself for ever.  Otherwise it returns.

    • `Front` — the block that the `OTHER_INDEX` list begins with then,
    • `moveLoop_class`, `moveLoop_other`, `moveLoop_stuck` — the move loops,
    • `coalesce_returns_along_runs` — when `coalesce` and `allocate` return,
    • `allocate_null_along_runs` — what is free when `allocate` returns null.
-/
import Metta.HeapMod.Merge

namespace Metta.HeapMod

open Metta.Machine

variable {lo hi : Nat} {h : Heap} {L L₁ L₂ : Layout}

/-! ## §1. Sizes and lists. -/

/-- The size of a block. -/
def Layout.sizeAt (L : Layout) (a : Nat) : Nat := ((L.blk a).map Blk.size).getD 0

theorem Layout.sizeAt_of_blk {a : Nat} {b : Blk} (hb : L.blk a = some b) : L.sizeAt a = b.size := by
  rw [sizeAt, hb]
  rfl

/-- Where blocks have changed lists only: every address has a block of the same size, free or
allocated as it was. -/
def Resorted (L L' : Layout) : Prop :=
  ∀ a, (L'.blk a).map (fun b => (b.size, b.free)) = (L.blk a).map fun b => (b.size, b.free)

theorem Resorted.trans (r : Resorted L L₁) (r' : Resorted L₁ L₂) : Resorted L L₂ :=
  fun a => (r' a).trans (r a)

theorem Resorted.sizeAt (r : Resorted L L₁) (a : Nat) : L₁.sizeAt a = L.sizeAt a := by
  have hat := congrArg (fun o => (o.map Prod.fst).getD 0) (r a)
  simpa [Layout.sizeAt, Option.map_map, Function.comp_def] using hat

/-- The free blocks are those that were free. -/
theorem Resorted.free_iff (r : Resorted L L₁) {a n : Nat} :
    (∃ i, L₁.blk a = some ⟨n, i, true⟩) ↔ ∃ i, L.blk a = some ⟨n, i, true⟩ := by
  have hiff : ∀ L : Layout, (∃ i, L.blk a = some ⟨n, i, true⟩) ↔
      (L.blk a).map (fun b => (b.size, b.free)) = some (n, true) := by
    intro L
    cases hb : L.blk a with
    | none => simp
    | some b =>
        obtain ⟨size, index, free⟩ := b
        simp [eq_comm]
  rw [hiff, hiff, r a]

theorem resorted_move {a i : Nat} {b : Blk} (hb : L.blk a = some b) :
    Resorted L (L.move a b i) := by
  intro x
  simp only [Layout.move, Function.update_apply]
  split
  · next hx => rw [hx, hb]; rfl
  · rfl

/-- The size of a block is that of the class of its list. -/
def inClass (L : Layout) (i a : Nat) : Bool := findIndex (L.sizeAt a) = i

/-- The blocks of a list that are moved from it. -/
def movers (L : Layout) (i : Nat) : List Nat := (L.list i).filter fun a => !inClass L i a

/-- `find_index` answers `OTHER_INDEX` for large sizes only. -/
theorem findIndex_eq_other_iff {n : Nat} (hn : n < wordSize) :
    findIndex n = otherIndex ↔ largeLimit < n := by
  unfold findIndex
  by_cases hsmall : n ≤ smallLimit
  · rw [if_pos hsmall]
    have hlim : smallLimit = 128 ∧ largeLimit = 10368 ∧ otherIndex = 40 := ⟨rfl, rfl, rfl⟩
    refine ⟨fun heq => ?_, fun hlt => by omega⟩
    unfold smallIndex at heq
    by_cases hz : n = 0
    · rw [hz] at heq
      exact absurd heq (by decide)
    · rw [sub32_eq (by omega) hn, wordBytes] at heq
      omega
  · rw [if_neg hsmall]
    by_cases hlarge : n ≤ largeLimit
    · rw [if_pos hlarge]
      have hle : n ≤ allSizes (otherIndex - 1) := hlarge.trans (by decide)
      have hsearch := (@searchSizes_spec n smallBlocks _ (by decide) hle).1
      refine ⟨fun heq => ?_, fun hlt => absurd hlt (by omega)⟩
      rw [heq] at hsearch
      exact absurd hsearch (by decide)
    · rw [if_neg hlarge]
      exact ⟨fun _ => by omega, fun _ => rfl⟩

/-! ## §2. The move loops. -/

/-- **The move loop over the list of a class** returns: the blocks of another class are in front
of the `OTHER_INDEX` list then, the last one first. -/
theorem moveLoop_class {i : Nat} (hi' : i < otherIndex) :
    ∀ (suf : List Nat) (n : Nat) (h : Heap) (L : Layout) (pre : List Nat), suf.length < n →
      Inv lo hi h L 0 → L.list i = pre ++ suf →
      ∃ h' L', Heap.moveLoop n (slotOf i pre) h = .ok h' ∧ Evolves lo hi h L h' L' 0 0 ∧
        Resorted L L' ∧ L'.list i = pre ++ suf.filter (fun a => inClass L i a) ∧
        L'.list otherIndex = (suf.filter fun a => !inClass L i a).reverse ++ L.list otherIndex ∧
        ∀ j, j ≠ i → j ≠ otherIndex → L'.list j = L.list j := by
  have hcount : i < count := hi'.trans (by decide)
  intro suf
  induction suf with
  | nil =>
      intro n h L pre hn I hl
      obtain ⟨n, rfl⟩ : ∃ m, n = m + 1 := ⟨n - 1, by omega⟩
      refine ⟨h, L, ?_, .refl I, fun _ => rfl, by simpa using hl, rfl, fun _ _ _ => rfl⟩
      rw [List.append_nil] at hl
      simp only [Heap.moveLoop, I.read_nil hcount hl, if_true]
  | cons a post ih =>
      intro n h L pre hn I hl
      -- the fuel counts the blocks behind this one
      simp only [List.length_cons] at hn
      obtain ⟨n, rfl⟩ : ∃ m, n = m + 1 := ⟨n - 1, by omega⟩
      obtain ⟨b, hb, hf, hbi⟩ := I.get_listed hl
      rw [I.moveLoop_cons hcount hl hb]
      have hsize : L.sizeAt a = b.size := Layout.sizeAt_of_blk hb
      by_cases hclass : findIndex b.size = i
      · -- the block stays in its list
        rw [if_pos hclass]
        have hin : inClass L i a = true := by simp [inClass, hsize, hclass]
        obtain ⟨h', L', hok, e, r, hself, hother, hrest⟩ :=
          ih n h L (pre ++ [a]) (by omega) I (by simpa using hl)
        refine ⟨h', L', hok, e, r, ?_, ?_, hrest⟩
        · rw [hself, List.filter_cons_of_pos hin, List.append_assoc]
          rfl
        · rw [hother, List.filter_cons_of_neg (by simp [hin])]
      · -- the block moves to the front of the last list
        rw [if_neg hclass]
        have hin : inClass L i a = false := by simp [inClass, hsize, hclass]
        have e₁ := Evolves.move I hl hb hf hbi
        have r₁ := resorted_move (i := i) hb
        obtain ⟨h', L', hok, e, r, hself, hother, hrest⟩ :=
          ih n _ _ pre (by omega) e₁.inv (I.wf.move_list_self hi'.ne hl)
        have hsame : inClass (L.move a b i) i = inClass L i := by
          funext c
          rw [inClass, inClass, r₁.sizeAt]
        rw [hsame] at hself hother
        refine ⟨h', L', hok, e₁.trans e, r₁.trans r, ?_, ?_, fun j hji hjo => ?_⟩
        · rw [hself, List.filter_cons_of_neg (by simp [hin])]
        · rw [hother, List.filter_cons_of_pos (by simp [hin]), List.reverse_cons,
            List.append_assoc]
          simp [Layout.move, hi'.ne']
        · rw [hrest j hji hjo]
          simp [Layout.move, hji, hjo]

/-- **The move loop over the `OTHER_INDEX` list never returns** where the list begins with a block
of another class: the block is put in front of itself. -/
theorem moveLoop_stuck {a : Nat} {post : List Nat} (n : Nat) :
    ∀ (h : Heap) (L : Layout), Inv lo hi h L 0 → L.list otherIndex = a :: post →
      inClass L otherIndex a = false →
      Heap.moveLoop n (slotOf otherIndex []) h = .error .running := by
  induction n with
  | zero =>
      intro h L _ _ _
      rfl
  | succ n ih =>
      intro h L I hl hin
      have hl' : L.list otherIndex = [] ++ a :: post := hl
      obtain ⟨b, hb, hf, hbi⟩ := I.get_listed hl'
      have hclass : findIndex b.size ≠ otherIndex := by
        simpa [inClass, Layout.sizeAt_of_blk hb] using hin
      rw [I.moveLoop_cons (by decide) hl' hb, if_neg hclass]
      have e := Evolves.move I hl' hb hf hbi
      refine ih _ _ e.inv (I.wf.move_list_other hl') ?_
      rw [inClass, (resorted_move hb).sizeAt]
      exact hin

/-- **The move loop over the `OTHER_INDEX` list returns** once it is past the first block. -/
theorem moveLoop_other :
    ∀ (suf : List Nat) (n : Nat) (h : Heap) (L : Layout) (pre : List Nat), suf.length < n →
      pre ≠ [] → Inv lo hi h L 0 → L.list otherIndex = pre ++ suf →
      ∃ h' L', Heap.moveLoop n (slotOf otherIndex pre) h = .ok h' ∧
        Evolves lo hi h L h' L' 0 0 ∧ Resorted L L' ∧
        ∀ j, j ≠ otherIndex → L'.list j = L.list j := by
  intro suf
  induction suf with
  | nil =>
      intro n h L pre hn hpre I hl
      obtain ⟨n, rfl⟩ : ∃ m, n = m + 1 := ⟨n - 1, by omega⟩
      rw [List.append_nil] at hl
      refine ⟨h, L, ?_, .refl I, fun _ => rfl, fun _ _ => rfl⟩
      simp only [Heap.moveLoop, I.read_nil (by decide) hl, if_true]
  | cons a post ih =>
      intro n h L pre hn hpre I hl
      simp only [List.length_cons] at hn
      obtain ⟨n, rfl⟩ : ∃ m, n = m + 1 := ⟨n - 1, by omega⟩
      obtain ⟨b, hb, hf, hbi⟩ := I.get_listed hl
      rw [I.moveLoop_cons (by decide) hl hb]
      split
      · exact ih n h L (pre ++ [a]) (by omega) (by simp) I (by simpa using hl)
      · have e₁ := Evolves.move I hl hb hf hbi
        have hlist : (L.move a b otherIndex).list otherIndex = (a :: pre) ++ post :=
          I.wf.move_list_other hl
        obtain ⟨h', L', hok, e, r, hrest⟩ := ih n _ _ (a :: pre) (by omega) (by simp) e₁.inv hlist
        rw [slotOf_cons_of_ne_nil _ _ hpre] at hok
        refine ⟨h', L', hok, e₁.trans e, (resorted_move hb).trans r, fun j hj => ?_⟩
        rw [hrest j hj]
        simp [Layout.move, hj]

/-- **The move pass over the lists of all classes** returns. -/
theorem movePass_class {bound : Nat} (hbound : hi - lo < bound) (I : Inv lo hi h L 0) :
    ∀ n ≤ otherIndex, ∃ h' L', Heap.forLists (Heap.coalesceMoveBlocks bound) n h = .ok h' ∧
      Evolves lo hi h L h' L' 0 0 ∧ Resorted L L' ∧
      (∀ j < n, L'.list j = (L.list j).filter fun a => inClass L j a) ∧
      (∀ j, n ≤ j → j ≠ otherIndex → L'.list j = L.list j) ∧
      L'.list otherIndex = ((List.range n).flatMap (movers L)).reverse ++ L.list otherIndex := by
  intro n
  induction n with
  | zero =>
      intro _
      exact ⟨h, L, rfl, .refl I, fun _ => rfl, fun j hj => by omega, fun _ _ _ => rfl, rfl⟩
  | succ n ih =>
      intro hn
      obtain ⟨h₁, L₁, hok, e, r, hdone, htodo, hother⟩ := ih (by omega)
      have hn' : n ≠ otherIndex := by omega
      obtain ⟨h₂, L₂, hok', e', r', hself, hother', hrest⟩ := moveLoop_class (show n < otherIndex
        by omega) (L₁.list n) bound h₁ L₁ [] ((e.inv.wf.length_list_le n).trans_lt hbound) e.inv rfl
      have hsame : inClass L₁ = inClass L := by
        funext j c
        rw [inClass, inClass, r.sizeAt]
      rw [hsame, htodo n le_rfl hn'] at hself hother'
      refine ⟨h₂, L₂, ?_, e.trans e', r.trans r', fun j hj => ?_, fun j hj hjo => ?_, ?_⟩
      · rw [Heap.forLists, hok]
        exact hok'
      · rcases Nat.lt_succ_iff_lt_or_eq.mp hj with hlt | rfl
        · rw [hrest j hlt.ne (by omega), hdone j hlt]
        · exact hself
      · rw [hrest j (by omega) hjo, htodo j (by omega) hjo]
      · rw [hother', hother, List.range_succ, List.flatMap_append, List.reverse_append,
          List.append_assoc]
        simp [movers]

/-! ## §3. The block that the last list begins with. -/

/-- A block on list `i` that begins a maximal run of another class. -/
def Misplaced (L : Layout) (i a : Nat) : Prop := ∃ n, MaxRun L a n ∧ findIndex n ≠ i

/-- **What the `OTHER_INDEX` list begins with** when the move pass comes to it: the last block, in
the order of the lists, that is misplaced on the list of a class; where there is none, the first
block of the `OTHER_INDEX` list that begins a maximal run. -/
inductive Front (L : Layout) (a : Nat) : Prop where
  | moved {i : Nat} {pre post : List Nat} (hi' : i < otherIndex) (hl : L.list i = pre ++ a :: post)
      (ha : Misplaced L i a) (hpost : ∀ c ∈ post, ¬ Misplaced L i c)
      (hlists : ∀ j, i < j → j < otherIndex → ∀ c ∈ L.list j, ¬ Misplaced L j c)
  | kept {pre post : List Nat} (hlists : ∀ j < otherIndex, ∀ c ∈ L.list j, ¬ Misplaced L j c)
      (hl : L.list otherIndex = pre ++ a :: post) (ha : ∃ n, MaxRun L a n)
      (hpre : ∀ c ∈ pre, ¬ ∃ n, MaxRun L c n)

/-- That block, if there is one, begins a run that is larger than all classes. -/
def FrontLarge (L : Layout) : Prop := ∀ a n, Front L a → MaxRun L a n → largeLimit < n

theorem getLast?_flatMap_range {f : Nat → List Nat} {n a : Nat} :
    ((List.range n).flatMap f).getLast? = some a ↔
      ∃ i < n, (f i).getLast? = some a ∧ ∀ j, i < j → j < n → f j = [] := by
  induction n with
  | zero => simp
  | succ n ih =>
      rw [List.range_succ, List.flatMap_append, List.getLast?_append, List.flatMap_singleton,
        Option.or_eq_some_iff, ih]
      constructor
      · rintro (hlast | ⟨hnone, i, hin, hlast, hrest⟩)
        · exact ⟨n, lt_add_one n, hlast, fun j hj hjn => by omega⟩
        · refine ⟨i, by omega, hlast, fun j hj hjn => ?_⟩
          rcases Nat.lt_succ_iff_lt_or_eq.mp hjn with hlt | rfl
          · exact hrest j hj hlt
          · exact List.getLast?_eq_none_iff.mp hnone
      · rintro ⟨i, hin, hlast, hrest⟩
        rcases Nat.lt_succ_iff_lt_or_eq.mp hin with hlt | rfl
        · refine .inr ⟨List.getLast?_eq_none_iff.mpr (hrest n hlt (lt_add_one n)), i, hlt, hlast,
            fun j hj hjn => hrest j hj (by omega)⟩
        · exact .inl hlast

theorem head?_filter_eq_some {p : Nat → Bool} {l : List Nat} {a : Nat} :
    (l.filter p).head? = some a ↔
      ∃ pre post, l = pre ++ a :: post ∧ p a = true ∧ ∀ c ∈ pre, p c = false := by
  rw [List.head?_filter, List.find?_eq_some_iff_append]
  constructor
  · rintro ⟨ha, pre, post, hl, hpre⟩
    exact ⟨pre, post, hl, ha, fun c hc => by simpa using hpre c hc⟩
  · rintro ⟨pre, post, hl, ha, hpre⟩
    exact ⟨ha, pre, post, hl, fun c hc => by simp [hpre c hc]⟩

theorem getLast?_filter_eq_some {p : Nat → Bool} {l : List Nat} {a : Nat} :
    (l.filter p).getLast? = some a ↔
      ∃ pre post, l = pre ++ a :: post ∧ p a = true ∧ ∀ c ∈ post, p c = false := by
  rw [← List.head?_reverse, ← List.filter_reverse, head?_filter_eq_some]
  constructor
  · rintro ⟨pre, post, hl, ha, hpre⟩
    refine ⟨post.reverse, pre.reverse, ?_, ha, fun c hc => hpre c (List.mem_reverse.mp hc)⟩
    rw [← List.reverse_reverse l, hl]
    simp
  · rintro ⟨pre, post, hl, ha, hpost⟩
    refine ⟨post.reverse, pre.reverse, ?_, ha, fun c hc => hpost c (List.mem_reverse.mp hc)⟩
    rw [hl]
    simp

/-- The blocks that are moved, by the runs before the merge pass. -/
theorem Merged.misplaced_iff (m : Merged L L₁) (w : WF lo hi L) (w' : WF lo hi L₁)
    (hset : Coalesced L₁) {i a : Nat} (ha : a ∈ L.list i) :
    ((L₁.blk a).isSome && !inClass L₁ i a) = true ↔ Misplaced L i a := by
  rw [Bool.and_eq_true]
  constructor
  · rintro ⟨hsome, hin⟩
    have hmem : a ∈ L₁.list i := by
      rw [m.list i]
      exact List.mem_filter.mpr ⟨ha, hsome⟩
    obtain ⟨⟨n, j, free⟩, hb, hf, -⟩ := w'.listed.mp hmem
    simp only at hf
    subst hf
    refine ⟨n, (m.blk_iff w w' hset).mp ⟨j, hb⟩, ?_⟩
    simpa [inClass, Layout.sizeAt_of_blk hb] using hin
  · rintro ⟨n, hrun, hne⟩
    obtain ⟨j, hb⟩ := (m.blk_iff w w' hset).mpr hrun
    exact ⟨by rw [hb]; rfl, by simpa [inClass, Layout.sizeAt_of_blk hb] using hne⟩

/-- **The head of the list** is the front block. -/
theorem Merged.head_iff (m : Merged L L₁) (w : WF lo hi L) (w' : WF lo hi L₁)
    (hset : Coalesced L₁) (a : Nat) :
    (((List.range otherIndex).flatMap (movers L₁)).reverse ++ L₁.list otherIndex).head? = some a ↔
      Front L a := by
  have hmovers : ∀ i, movers L₁ i
      = (L.list i).filter fun c => (L₁.blk c).isSome && !inClass L₁ i c := by
    intro i
    rw [movers, m.list i, List.filter_filter]
    exact List.filter_congr fun c _ => Bool.and_comm _ _
  have hplace := fun {i c : Nat} (hc : c ∈ L.list i) => m.misplaced_iff w w' hset hc
  have hnone : ∀ i, movers L₁ i = [] ↔ ∀ c ∈ L.list i, ¬ Misplaced L i c := by
    intro i
    rw [hmovers, List.filter_eq_nil_iff]
    exact forall₂_congr fun c hc => not_congr (hplace hc)
  -- a block of the last list that is left over is the start of a run
  have hruns : ∀ c, (L₁.blk c).isSome = true → c ∈ L.list otherIndex → ∃ n, MaxRun L c n := by
    intro c hsome hc
    have hmem : c ∈ L₁.list otherIndex := by
      rw [m.list]
      exact List.mem_filter.mpr ⟨hc, hsome⟩
    obtain ⟨⟨n, j, free⟩, hb, hf, -⟩ := w'.listed.mp hmem
    simp only at hf
    subst hf
    exact ⟨n, (m.blk_iff w w' hset).mp ⟨j, hb⟩⟩
  have hsome : ∀ c n, MaxRun L c n → (L₁.blk c).isSome = true := by
    intro c n hrun
    obtain ⟨j, hb⟩ := (m.blk_iff w w' hset).mpr hrun
    rw [hb]
    rfl
  rw [List.head?_append, List.head?_reverse, Option.or_eq_some_iff, List.getLast?_eq_none_iff,
    getLast?_flatMap_range, m.list, head?_filter_eq_some]
  constructor
  · -- the last block that was moved is in front, and if none was, the first that was kept
    rintro (⟨i, hi', hlast, hrest⟩ | ⟨hnil, pre, post, hl, ha, hpre⟩)
    · rw [hmovers, getLast?_filter_eq_some] at hlast
      obtain ⟨pre, post, hl, ha, hpost⟩ := hlast
      have hmem : ∀ c ∈ a :: post, c ∈ L.list i := fun c hc => by
        rw [hl]
        exact List.mem_append_right _ hc
      refine .moved hi' hl ((hplace (hmem a List.mem_cons_self)).mp ha) (fun c hc hmis => ?_)
        fun j hij hj => (hnone j).mp (hrest j hij hj)
      have := (hplace (hmem c (List.mem_cons_of_mem _ hc))).mpr hmis
      rw [hpost c hc] at this
      cases this
    · rw [List.flatMap_eq_nil_iff] at hnil
      refine .kept (fun j hj => (hnone j).mp (hnil j (List.mem_range.mpr hj))) hl
        (hruns a ha (by rw [hl]; simp)) ?_
      rintro c hc ⟨n, hrun⟩
      have := hsome c n hrun
      rw [hpre c hc] at this
      cases this
  · -- conversely, the front of the runs comes to the front of the list
    rintro (⟨hi', hl, ha, hpost, hlists⟩ | ⟨hlists, hl, ⟨n, ha⟩, hpre⟩)
    · left
      refine ⟨_, hi', ?_, fun j hij hj => (hnone j).mpr (hlists j hij hj)⟩
      rw [hmovers, getLast?_filter_eq_some]
      refine ⟨_, _, hl, (hplace (by rw [hl]; simp)).mpr ha, fun c hc => ?_⟩
      rw [Bool.eq_false_iff]
      exact fun hc' => hpost c hc ((hplace (by rw [hl]; simp [hc])).mp hc')
    · right
      refine ⟨?_, _, _, hl, hsome a n ha, fun c hc => ?_⟩
      · rw [List.flatMap_eq_nil_iff]
        exact fun j hj => (hnone j).mpr (hlists j (List.mem_range.mp hj))
      · rw [Bool.eq_false_iff]
        exact fun hc' => hpre c hc (hruns c hc' (by rw [hl]; simp [hc]))

/-! ## §4. `coalesce`. -/

theorem moveLoop_mono {n m : Nat} {s : Heap.Slot} {h' : Heap} (hnm : n ≤ m)
    (h₀ : Heap.moveLoop n s h = .ok h') : Heap.moveLoop m s h = .ok h' := by
  induction n generalizing m s h with
  | zero => cases h₀
  | succ n ih =>
      obtain ⟨m, rfl⟩ : ∃ k, m = k + 1 := ⟨m - 1, by omega⟩
      simp only [Heap.moveLoop] at h₀ ⊢
      split_ifs at h₀ ⊢ with hnull hclass
      · exact h₀
      · exact ih (by omega) h₀
      · exact ih (by omega) h₀

theorem coalesce_mono {n m : Nat} {h' : Heap} (hnm : n ≤ m)
    (h₀ : Heap.coalesce n h = .ok h') : Heap.coalesce m h = .ok h' := by
  obtain ⟨h₁, hmerge, hmove⟩ := bind_eq_ok.mp h₀
  exact bind_eq_ok.mpr ⟨h₁, forLists_mono (fun i h r => mergeLoop_mono hnm) hmerge,
    forLists_mono (fun i h r => moveLoop_mono hnm) hmove⟩

/-- What `coalesce` has done: the free blocks are the maximal runs, and those on the list of a
class were on it before and have the size of the class. -/
structure AfterCoalesce (L L' : Layout) : Prop where
  free : ∀ {a n}, (∃ i, L'.blk a = some ⟨n, i, true⟩) ↔ MaxRun L a n
  classes : ∀ i < otherIndex, ∀ a ∈ L'.list i, a ∈ L.list i ∧ findIndex (L'.sizeAt a) = i

theorem AfterCoalesce.resorted (c : AfterCoalesce L L₁) (r : Resorted L₁ L₂)
    (hlist : ∀ j, j ≠ otherIndex → L₂.list j = L₁.list j) : AfterCoalesce L L₂ where
  free := r.free_iff.trans c.free
  classes i hi' a ha := by
    rw [hlist i hi'.ne] at ha
    rw [r.sizeAt]
    exact c.classes i hi' a ha

/-- **`coalesce` up to its last loop**, which then begins with the front block. -/
theorem coalesce_before_other {bound : Nat} (hbound : hi - lo < bound) (I : Inv lo hi h L 0) :
    ∃ h₂ L₂, Heap.coalesce bound h = Heap.moveLoop bound (slotOf otherIndex []) h₂ ∧
      Evolves lo hi h L h₂ L₂ 0 0 ∧ AfterCoalesce L L₂ ∧
      ∀ a, (L₂.list otherIndex).head? = some a ↔ Front L a := by
  obtain ⟨h₁, L₁, hok₁, ⟨e₁, m, -⟩, hset⟩ := mergePass_merged hbound I (otherIndex + 1) (by decide)
  obtain ⟨h₂, L₂, hok₂, e₂, r, hlists, -, hother⟩ := movePass_class hbound e₁.inv otherIndex le_rfl
  have w₁ := e₁.inv.wf
  have hcoalesced : Coalesced L₁ := fun a b hb hf =>
    hset b.index (w₁.indexLt hb) a (w₁.listed.mpr ⟨b, hb, hf, rfl⟩)
  refine ⟨h₂, L₂, ?_, e₁.trans e₂, ⟨r.free_iff.trans (m.blk_iff I.wf w₁ hcoalesced), ?_⟩, fun a => ?_⟩
  · rw [Heap.coalesce, hok₁]
    show (Heap.forLists (Heap.coalesceMoveBlocks bound) otherIndex h₁).bind _ = _
    rw [hok₂]
    rfl
  · intro i hi' a ha
    rw [hlists i hi', m.list i, List.mem_filter, List.mem_filter] at ha
    refine ⟨ha.1.1, ?_⟩
    rw [r.sizeAt]
    simpa [inClass] using ha.2
  · rw [hother]
    exact m.head_iff I.wf w₁ hcoalesced a

/-- **`coalesce` returns** where the front block is large. -/
theorem coalesce_returns {bound : Nat} (hbound : hi - lo < bound) (I : Inv lo hi h L 0)
    (hfront : FrontLarge L) : ∃ h' L', Heap.coalesce bound h = .ok h' ∧
      Evolves lo hi h L h' L' 0 0 ∧ AfterCoalesce L L' := by
  obtain ⟨h₂, L₂, heq, e, hafter, hhead⟩ := coalesce_before_other hbound I
  obtain ⟨n, rfl⟩ : ∃ m, bound = m + 1 := ⟨bound - 1, by omega⟩
  have I₂ := e.inv
  have hlen := I₂.wf.length_list_le otherIndex
  cases hlist : L₂.list otherIndex with
  | nil =>
      refine ⟨h₂, L₂, ?_, e, hafter⟩
      rw [heq]
      simp only [Heap.moveLoop, I₂.read_nil (by decide) hlist, if_true]
  | cons a post =>
      have hlist' : L₂.list otherIndex = [] ++ a :: post := hlist
      obtain ⟨b, hb, hf, -⟩ := I₂.get_listed hlist'
      have hfr : Front L a := (hhead a).mp (by rw [hlist]; rfl)
      obtain ⟨size, index, free⟩ := b
      simp only at hf
      subst hf
      have hlarge := hfront a size hfr (hafter.free.mp ⟨index, hb⟩)
      have hbnd : a + 16 + size ≤ hi := (I₂.wf.bound hb).2
      have htop := I₂.top
      have hclass : findIndex size = otherIndex :=
        (findIndex_eq_other_iff (by omega)).mpr hlarge
      rw [hlist] at hlen
      simp only [List.length_cons] at hlen
      obtain ⟨h', L', hok, e', r, hrest⟩ := moveLoop_other post n h₂ L₂ [a] (by omega) (by simp) I₂
        hlist
      refine ⟨h', L', ?_, e.trans e', hafter.resorted r hrest⟩
      rw [heq, I₂.moveLoop_cons (by decide) hlist' hb, if_pos hclass]
      exact hok

/-- **`coalesce` does not return** where it is small. -/
theorem coalesce_stuck {bound : Nat} {h' : Heap} (I : Inv lo hi h L 0)
    (hok : Heap.coalesce bound h = .ok h') : FrontLarge L := by
  have hmax := coalesce_mono (le_max_left bound (hi - lo + 1)) hok
  have hbound : hi - lo < max bound (hi - lo + 1) := by omega
  obtain ⟨h₂, L₂, heq, e, hafter, hhead⟩ := coalesce_before_other hbound I
  intro a n hfront hrun
  by_contra hsmall
  have hfirst := (hhead a).mpr hfront
  obtain ⟨i, hb⟩ := hafter.free.mpr hrun
  have hbnd : a + 16 + n ≤ hi := (e.inv.wf.bound hb).2
  have htop := e.inv.top
  obtain ⟨post, hlist⟩ : ∃ post, L₂.list otherIndex = a :: post := by
    cases hl : L₂.list otherIndex with
    | nil => rw [hl] at hfirst; cases hfirst
    | cons c post =>
        rw [hl] at hfirst
        cases hfirst
        exact ⟨post, rfl⟩
  have hclass : inClass L₂ otherIndex a = false := by
    rw [inClass, Layout.sizeAt_of_blk hb, decide_eq_false_iff_not,
      findIndex_eq_other_iff (show n < wordSize by omega)]
    exact hsmall
  rw [heq, moveLoop_stuck _ h₂ L₂ e.inv hlist hclass] at hmax
  cases hmax

/-! ## §5. `allocate`. -/

/-- The size that is looked for: that of the class, or the rounded size where there is none. -/
def request (size : Nat) : Nat :=
  if findIndex (blockAlign size) ≠ otherIndex then allSizes (findIndex (blockAlign size))
  else blockAlign size

theorem newBlockLoop_mono {size k n m : Nat} {s : Heap.Slot} {r : Nat × Heap} (hnm : n ≤ m)
    (h₀ : Heap.newBlockLoop size k n s h = .ok r) : Heap.newBlockLoop size k m s h = .ok r := by
  induction n generalizing m s h with
  | zero => cases h₀
  | succ n ih =>
      obtain ⟨m, rfl⟩ : ∃ j, m = j + 1 := ⟨m - 1, by omega⟩
      simp only [Heap.newBlockLoop] at h₀ ⊢
      split_ifs at h₀ ⊢ with hnull hfit hfrag
      · exact h₀
      · exact h₀
      · exact h₀
      · exact ih (by omega) h₀

/-- **First fit returns**, with a block exactly if there is a block that is large enough. -/
theorem newBlockLoop_returns (size k : Nat) :
    ∀ (suf : List Nat) (n : Nat) (pre : List Nat), suf.length < n → Inv lo hi h L 0 →
      L.list otherIndex = pre ++ suf →
      ∃ a h', Heap.newBlockLoop size k n (slotOf otherIndex pre) h = .ok (a, h') ∧
        (a ≠ 0 ↔ ∃ c ∈ suf, size ≤ L.sizeAt c) ∧ (a = 0 → h' = h) := by
  intro suf
  induction suf with
  | nil =>
      intro n pre hn I hl
      obtain ⟨n, rfl⟩ : ∃ m, n = m + 1 := ⟨n - 1, by omega⟩
      rw [List.append_nil] at hl
      refine ⟨0, h, ?_, by simp, fun _ => rfl⟩
      simp only [Heap.newBlockLoop, I.read_nil (by decide) hl, if_true]
  | cons a post ih =>
      intro n pre hn I hl
      simp only [List.length_cons] at hn
      obtain ⟨n, rfl⟩ : ∃ m, n = m + 1 := ⟨n - 1, by omega⟩
      obtain ⟨b, hb, hf, hbi⟩ := I.get_listed hl
      have hread := I.read_cons (by decide) hl
      have hsize := I.rep.size hb
      have hbound := I.wf.bound hb
      have htop := I.top
      have hpos := I.pos
      have hane := I.ne_zero hb
      have hat := Layout.sizeAt_of_blk hb
      simp only [Heap.newBlockLoop, hread, hane, hsize, if_false]
      by_cases hfit : size ≤ b.size
      · -- the first block that is large enough is taken
        rw [if_pos hfit]
        have hsome : ∃ c ∈ a :: post, size ≤ L.sizeAt c := ⟨a, List.mem_cons_self, hat ▸ hfit⟩
        split
        · have hne : sub32 (add32 a b.size) size ≠ 0 := by
            have hadd : add32 a b.size = a + b.size := add32_eq (by omega)
            rw [hadd, sub32_eq (by omega) (by omega)]
            omega
          exact ⟨_, _, rfl, iff_of_true hne hsome, fun hz => absurd hz hne⟩
        · exact ⟨_, _, rfl, iff_of_true hane hsome, fun hz => absurd hz hane⟩
      · -- too small: on with the next one
        rw [if_neg hfit]
        obtain ⟨a', h', hok, hiff, hsame⟩ := ih n (pre ++ [a]) (by omega) I (by simpa using hl)
        rw [slotOf_concat] at hok
        refine ⟨a', h', hok, hiff.trans ?_, hsame⟩
        -- the block that is too small is not one of those that fit
        constructor
        · rintro ⟨c, hc, hle⟩
          exact ⟨c, List.mem_cons_of_mem _ hc, hle⟩
        · rintro ⟨c, hc, hle⟩
          rcases List.mem_cons.mp hc with rfl | hc
          · exact absurd (hat ▸ hle) hfit
          · exact ⟨c, hc, hle⟩

/-- What a first fit that has returned says about the list. -/
theorem newBlockLoop_ne_zero_iff {size k bound : Nat} {r : Nat × Heap} (I : Inv lo hi h L 0)
    (hok : Heap.newBlockLoop size k bound (slotOf otherIndex []) h = .ok r) :
    (r.1 ≠ 0 ↔ ∃ c ∈ L.list otherIndex, size ≤ L.sizeAt c) ∧ (r.1 = 0 → r.2 = h) := by
  obtain ⟨a, h', hret, hiff, hsame⟩ := newBlockLoop_returns size k
    (L.list otherIndex) (max bound ((L.list otherIndex).length + 1)) [] (by omega) I rfl
  rw [newBlockLoop_mono (le_max_left _ _) hok] at hret
  cases hret
  exact ⟨hiff, hsame⟩

/-- What a `coalesce` that has returned has done. -/
theorem coalesce_after {bound : Nat} {h' : Heap} (I : Inv lo hi h L 0)
    (hok : Heap.coalesce bound h = .ok h') :
    ∃ L', Evolves lo hi h L h' L' 0 0 ∧ AfterCoalesce L L' := by
  have hbound : hi - lo < max bound (hi - lo + 1) := by omega
  obtain ⟨h'', L', hret, e, hafter⟩ := coalesce_returns hbound I (coalesce_stuck I hok)
  rw [coalesce_mono (le_max_left _ _) hok] at hret
  cases hret
  exact ⟨L', e, hafter⟩

/-- `get_new_block` with what it looks for. -/
theorem getNewBlock_eq (bound size k : Nat) (h : Heap) :
    Heap.getNewBlock bound size k h
      = (Heap.newBlockLoop (if k ≠ otherIndex then allSizes k else size) k bound
          (slotOf otherIndex []) h).bind fun r =>
          if r.1 ≠ 0 then .ok (r.1, r.2)
          else (Heap.coalesce bound r.2).bind
            (Heap.newBlockLoop (if k ≠ otherIndex then allSizes k else size) k bound
              (slotOf otherIndex [])) := rfl

/-- **`get_new_block` returns** where the last list has a block that is large enough, or
`coalesce` returns. -/
theorem getNewBlock_returns_iff {size k n : Nat} (I : Inv lo hi h L 0)
    (hn : n = if k ≠ otherIndex then allSizes k else size) :
    (∃ bound r, Heap.getNewBlock bound size k h = .ok r) ↔
      (∃ c ∈ L.list otherIndex, n ≤ L.sizeAt c) ∨ FrontLarge L := by
  simp only [getNewBlock_eq, ← hn]
  constructor
  · rintro ⟨bound, r, hok⟩
    obtain ⟨r₁, hfirst, hrest⟩ := bind_eq_ok.mp hok
    obtain ⟨hiff, hsame⟩ := newBlockLoop_ne_zero_iff I hfirst
    split at hrest
    · next hne => exact .inl (hiff.mp hne)
    · next hzero =>
      obtain ⟨h₁, hcoal, -⟩ := bind_eq_ok.mp hrest
      rw [hsame (not_not.mp hzero)] at hcoal
      exact .inr (coalesce_stuck I hcoal)
  · intro hcase
    have hlen := I.wf.length_list_le otherIndex
    obtain ⟨a, h', hfirst, hiff, hsame⟩ := newBlockLoop_returns n k
      (L.list otherIndex) (hi - lo + 1) [] (by omega) I rfl
    by_cases hne : a = 0
    · rcases hcase with hsome | hfront
      · exact absurd hne (hiff.mpr hsome)
      · obtain ⟨h₁, L₁, hcoal, e, -⟩ := coalesce_returns (lt_add_one (hi - lo)) I hfront
        have hlen₁ := e.inv.wf.length_list_le otherIndex
        obtain ⟨a', h'', hsecond, -⟩ := newBlockLoop_returns n k
          (L₁.list otherIndex) (hi - lo + 1) [] (by omega) e.inv rfl
        refine ⟨hi - lo + 1, (a', h''), bind_eq_ok.mpr ⟨_, hfirst, ?_⟩⟩
        rw [if_neg (not_not.mpr hne), hsame hne]
        exact bind_eq_ok.mpr ⟨h₁, hcoal, hsecond⟩
    · exact ⟨hi - lo + 1, (a, h'), bind_eq_ok.mpr ⟨_, hfirst, if_pos hne⟩⟩

/-- **Where `get_new_block` finds nothing**, no block of the last list is large enough after
coalescing. -/
theorem getNewBlock_null {bound size k n : Nat} {h' : Heap} (I : Inv lo hi h L 0)
    (hn : n = if k ≠ otherIndex then allSizes k else size)
    (hok : Heap.getNewBlock bound size k h = .ok (0, h')) :
    ∃ L', AfterCoalesce L L' ∧ WF lo hi L' ∧ ∀ c ∈ L'.list otherIndex, L'.sizeAt c < n := by
  simp only [getNewBlock_eq, ← hn] at hok
  obtain ⟨r₁, hfirst, hrest⟩ := bind_eq_ok.mp hok
  obtain ⟨-, hsame⟩ := newBlockLoop_ne_zero_iff I hfirst
  split at hrest
  · next hne => exact absurd (congrArg Prod.fst (Except.ok.inj hrest)) hne
  · next hzero =>
    obtain ⟨h₁, hcoal, hsecond⟩ := bind_eq_ok.mp hrest
    rw [hsame (not_not.mp hzero)] at hcoal
    obtain ⟨L₁, e, hafter⟩ := coalesce_after I hcoal
    refine ⟨L₁, hafter, e.inv.wf, fun c hc => ?_⟩
    by_contra hle
    exact (newBlockLoop_ne_zero_iff e.inv hsecond).1.mpr ⟨c, hc, not_lt.mp hle⟩ rfl

/-- A list is empty where its head is null. -/
theorem Inv.blocks_eq_zero_iff (I : Inv lo hi h L 0) {k : Nat} (hk : k < count) :
    h.blocks k = 0 ↔ L.list k = [] := by
  have hchain := I.rep.chain k hk
  cases hl : L.list k with
  | nil =>
      rw [hl] at hchain
      exact iff_of_true hchain rfl
  | cons a post =>
      rw [hl] at hchain
      exact iff_of_false (hchain.1 ▸ hchain.2.1) (by simp)

/-- **When `allocate` returns**: for no bytes; else the rounding must not wrap, and the list of the
class has a block, or the last list has one that is large enough, or `coalesce` returns. -/
def Returns (L : Layout) (size : Nat) : Prop :=
  size = 0 ∨ size + wordBytes < wordSize ∧
    ((findIndex (blockAlign size) ≠ otherIndex ∧ L.list (findIndex (blockAlign size)) ≠ []) ∨
      (∃ c ∈ L.list otherIndex, request size ≤ L.sizeAt c) ∨ FrontLarge L)

theorem blockAlign_bounds {size : Nat} (hfit : size + wordBytes < wordSize) :
    blockAlign size % 8 = 0 ∧ 0 < blockAlign size ∧ blockAlign size < wordSize := by
  have hval : blockAlign size = (size + 8) / 8 * 8 := blockAlign_eq hfit
  have hlt : size + 8 < wordSize := hfit
  omega

theorem allocate_returns_iff (I : Inv lo hi h L 0) {size : Nat} (hlt : size < wordSize) :
    (∃ bound r, h.allocate bound size = .ok r) ↔ Returns L size := by
  by_cases hzero : size = 0
  · refine iff_of_true ⟨0, (h.nullMalloc, h), ?_⟩ (.inl hzero)
    rw [Heap.allocate, if_pos hzero]
  · by_cases hfit : size + wordBytes < wordSize
    · obtain ⟨-, hposn, hltn⟩ := blockAlign_bounds hfit
      have hk := (findIndex_spec hposn hltn).1
      have hiff := @getNewBlock_returns_iff _ _ _ _ (blockAlign size)
        (findIndex (blockAlign size)) (request size) I rfl
      simp only [Returns, hzero, false_or, hfit, true_and]
      simp only [allocate_eq _ h (Nat.pos_of_ne_zero hzero) hk, I.blocks_eq_zero_iff hk]
      -- a list of its own that is not empty ends the search at once
      split
      · next hnew =>
        rw [show (findIndex (blockAlign size) ≠ otherIndex ∧
          L.list (findIndex (blockAlign size)) ≠ []) ↔ False by tauto, false_or, ← hiff]
        constructor
        · rintro ⟨bound, r, hok⟩
          obtain ⟨r', hget, -⟩ := bind_eq_ok.mp hok
          exact ⟨bound, r', hget⟩
        · rintro ⟨bound, r', hget⟩
          refine ⟨bound, if r'.1 = 0 then (0, r'.2) else Heap.finishAllocate r'.1 r'.2, ?_⟩
          rw [hget]
          simp only [Except.bind]
          split <;> rfl
      · next hown => exact iff_of_true ⟨0, _, rfl⟩ (.inl (by tauto))
    · -- the request wraps around, and null is given back
      refine iff_of_false ?_ ?_
      · rintro ⟨bound, r, hok⟩
        rw [allocate_wraps bound h hlt hfit] at hok
        cases hok
      · rintro (hz | ⟨hf, -⟩)
        · exact hzero hz
        · exact hfit hf

/-! ## §6. Runs. -/

/-- A call that returned had a size that survives rounding. -/
theorem Step.fits {w w' : World} {c : Call} (hs : Step w c w') : c.Fits := by
  obtain ⟨hallow, bound, hexec⟩ := hs
  cases c with
  | allocate size =>
      by_contra hwrap
      rw [World.exec, allocate_wraps bound w.heap hallow hwrap] at hexec
      cases hexec
  | free p => trivial
  | write a v => trivial

theorem Run.fits {w₀ w : World} {cs : List Call} (hrun : Run w₀ cs w) : ∀ c ∈ cs, c.Fits := by
  induction hrun with
  | nil =>
      intro c hc
      cases hc
  | snoc _ hs ih =>
      intro c hc
      rcases List.mem_append.mp hc with hc | hc
      · exact ih c hc
      · exact List.mem_singleton.mp hc ▸ hs.fits

/-- **When `coalesce` and `allocate` return**, in every heap that is reached by a run: `coalesce`
does exactly if the front block is large. -/
theorem coalesce_returns_along_runs {start end_ : Nat} {w₀ w : World} {cs : List Call}
    (hstart : Starts start end_ w₀) (hrun : Run w₀ cs w) :
    ∃ L, WorldInv start end_ w L ∧
      ((∃ bound h', w.heap.coalesce bound = .ok h') ↔ FrontLarge L) ∧
      ∀ size < wordSize, (∃ bound r, w.heap.allocate bound size = .ok r) ↔ Returns L size := by
  obtain ⟨L, W⟩ := run_inv hstart hrun hrun.fits
  refine ⟨L, W, ⟨fun ⟨bound, h', hok⟩ => coalesce_stuck W.inv hok, fun hfront => ?_⟩,
    fun size hlt => allocate_returns_iff W.inv hlt⟩
  obtain ⟨h', -, hok, -⟩ := coalesce_returns (lt_add_one _) W.inv hfront
  exact ⟨_, h', hok⟩

theorem coalesce_returns_small_run :
    ∃ L, WorldInv 0x1000 0x1100 (smallWorld.after (.allocate 10)) L ∧
      ((∃ bound h', (smallWorld.after (.allocate 10)).heap.coalesce bound = .ok h') ↔
        FrontLarge L) := by
  have h₁ : Step smallWorld (.allocate 10) (smallWorld.after (.allocate 10)) :=
    ⟨by decide, 8, rfl⟩
  obtain ⟨L, W, hiff, -⟩ := coalesce_returns_along_runs smallWorld_starts (Run.nil.snoc h₁)
  exact ⟨L, W, hiff⟩

/-- The fresh heap, whose only block is smaller than the largest class. -/
theorem smallWorld_inv : Inv 0x1010 0x10f0 smallWorld.heap (initLayout 0x1010 208) 0 :=
  @init_inv ⟨fun _ => 0, []⟩ 0x800 0x1000 0x1100 (by decide) (by decide) (by decide)

theorem smallWorld_not_frontLarge : ¬ FrontLarge (initLayout 0x1010 208) := by
  intro hlarge
  have hblk : (initLayout 0x1010 208).blk 0x1010 = some ⟨208, otherIndex, true⟩ := rfl
  have hrun : MaxRun (initLayout 0x1010 208) 0x1010 208 := by
    refine ⟨.single hblk rfl, fun p d hp _ => ?_, fun b hb => ?_⟩
    · obtain ⟨rfl, rfl⟩ := initLayout_blk hp
      decide
    · have := (initLayout_blk hb).1
      simp [recSize] at this
  have hfront : Front (initLayout 0x1010 208) 0x1010 := by
    have hlist : (initLayout 0x1010 208).list otherIndex = [] ++ 0x1010 :: [] := rfl
    refine .kept (fun j hj c hc => ?_) hlist ⟨208, hrun⟩ fun c hc => by cases hc
    simp [initLayout, hj.ne] at hc
  exact absurd (hlarge _ _ hfront hrun) (by decide)

/-- **A heap of 256 bytes, and 20000 bytes are asked for**: `coalesce` does not return. -/
theorem coalesce_runs_on :
    Starts 0x1000 0x1100 smallWorld ∧ Run smallWorld [] smallWorld ∧
      (∀ bound h', smallWorld.heap.coalesce bound ≠ .ok h') ∧
      ∀ bound r, smallWorld.heap.allocate bound 20000 ≠ .ok r := by
  refine ⟨smallWorld_starts, .nil, fun bound h' hok => ?_, fun bound r hok => ?_⟩
  · exact smallWorld_not_frontLarge (coalesce_stuck smallWorld_inv hok)
  · have hret := (allocate_returns_iff smallWorld_inv (by decide : 20000 < wordSize)).mp
      ⟨bound, r, hok⟩
    rcases hret with hz | ⟨-, ⟨hclass, -⟩ | ⟨c, hc, hle⟩ | hfront⟩
    · exact absurd hz (by decide)
    · exact hclass (by decide)
    · obtain rfl : c = 0x1010 := by simpa [initLayout] using hc
      exact absurd hle (by decide)
    · exact smallWorld_not_frontLarge hfront

theorem allSizes_pos (i : Nat) : 0 < allSizes i := by
  unfold allSizes
  split
  · next w hw =>
    have hpos : ∀ w ∈ sizeWords, 0 < w := by decide
    exact Nat.mul_pos (hpos w (List.mem_of_getElem? hw)) (by decide)
  · decide

/-- The sizes of the classes grow, up to `LARGE_LIMIT`. -/
theorem allSizes_classes : ∀ i < otherIndex, allSizes i ≤ largeLimit ∧
    ∀ k < otherIndex, allSizes k ≤ allSizes i → k ≤ i := by
  decide +kernel

/-- A block of a class on its list that is large enough for a request that found nothing on its
own list is of a larger class. -/
theorem Inv.class_lt (I : Inv lo hi h L 0) {size i a : Nat} (hi' : i < otherIndex)
    (ha : a ∈ L.list i) (hle : request size ≤ allSizes i) (hfit : size + wordBytes < wordSize)
    (hnew : h.blocks (findIndex (blockAlign size)) = 0 ∨
      findIndex (blockAlign size) = otherIndex) : findIndex (blockAlign size) < i := by
  obtain ⟨hmul, hpos, hlt⟩ := blockAlign_bounds hfit
  obtain ⟨hsmall, hmono⟩ := allSizes_classes i hi'
  by_cases hother : findIndex (blockAlign size) = otherIndex
  · -- a request of no class is larger than the classes
    have hlarge := (findIndex_eq_other_iff hlt).mp hother
    rw [request, if_neg (not_not.mpr hother)] at hle
    omega
  · have hk := (findIndex_spec hpos hlt).1
    have hk' : findIndex (blockAlign size) < otherIndex := by
      simp only [count, otherIndex] at hk hother ⊢
      omega
    rw [request, if_pos hother] at hle
    refine lt_of_le_of_ne (hmono _ hk' hle) ?_
    rintro rfl
    rw [(I.blocks_eq_zero_iff hk).mp (hnew.resolve_right hother)] at ha
    cases ha

/-- **What is free when `allocate` returns null**: a maximal run of adjacent free blocks that is
large enough has exactly the size of a larger class, and begins on the list of that class. -/
theorem allocate_null_along_runs {start end_ : Nat} {w₀ w : World} {cs : List Call}
    (hstart : Starts start end_ w₀) (hrun : Run w₀ cs w) :
    ∃ L, WorldInv start end_ w L ∧
      ∀ size, 0 < size → size < wordSize →
        ∀ bound h', w.heap.allocate bound size = .ok (0, h') →
          ∀ a n, MaxRun L a n → request size ≤ n →
            ∃ i, findIndex (blockAlign size) < i ∧ i < otherIndex ∧ a ∈ L.list i ∧
              n = allSizes i := by
  obtain ⟨L, W⟩ := run_inv hstart hrun hrun.fits
  refine ⟨L, W, fun size hpos hlt bound h' hok a n hmax hle => ?_⟩
  have hfit : size + wordBytes < wordSize := by
    by_contra hwrap
    rw [allocate_wraps bound _ hlt hwrap] at hok
    cases hok
  obtain ⟨hmul, hposn, hltn⟩ := blockAlign_bounds hfit
  have hk := (findIndex_spec hposn hltn).1
  rw [allocate_eq bound _ hpos hk] at hok
  split at hok
  · next hnew =>
    obtain ⟨r, hget, hend⟩ := bind_eq_ok.mp hok
    split at hend
    · next hzero =>
      obtain ⟨r₁, h₁⟩ := r
      simp only at hzero
      subst hzero
      obtain ⟨L', hafter, w', hsmall⟩ :=
        getNewBlock_null (n := request size) W.inv rfl hget
      obtain ⟨i, hb⟩ := hafter.free.mpr hmax
      have hmem : a ∈ L'.list i := w'.listed.mpr ⟨_, hb, rfl, rfl⟩
      have hsize : L'.sizeAt a = n := Layout.sizeAt_of_blk hb
      have hic : i < count := w'.indexLt hb
      have hio : i ≠ otherIndex := by
        rintro rfl
        have := hsmall a hmem
        omega
      have hi' : i < otherIndex := by
        simp only [otherIndex] at hio ⊢
        omega
      obtain ⟨hlisted, hclass⟩ := hafter.classes i hi' a hmem
      rw [hsize] at hclass
      -- the size is that of the class: it is enough for it, and no larger
      have hge : allSizes i ≤ n := w'.classLe hb hi'
      have hbnd : a + 16 + n ≤ end_ - 16 := (w'.bound hb).2
      have htop := W.inv.top
      have hupper := (findIndex_spec (lt_of_lt_of_le (allSizes_pos i) hge) (by omega)).2
        (hclass ▸ hi')
      rw [hclass] at hupper
      have hn : n = allSizes i := le_antisymm hupper hge
      exact ⟨i, W.inv.class_lt hi' hlisted (hn ▸ hle) hfit hnew, hi', hlisted, hn⟩
    · next hne =>
      rcases getNewBlock_spec bound W.inv hmul hk (findIndex_spec hposn hltn).2 with
        hrun | ⟨h₁, -, hnull, -⟩ | ⟨a', h₁, hsome, -, H⟩
      · rw [hrun] at hget
        cases hget
      · rw [hnull] at hget
        cases hget
        exact absurd rfl hne
      · rw [hsome] at hget
        cases hget
        exact absurd (congrArg Prod.fst (Except.ok.inj hend)) (by
          rw [H.finish.1]
          exact Nat.succ_ne_zero _)
  · next hown =>
    simp only [not_or] at hown
    obtain ⟨a', post, hl⟩ := List.exists_cons_of_ne_nil
      fun hnil => hown.1 ((W.inv.blocks_eq_zero_iff hk).mpr hnil)
    have hchain := W.inv.rep.chain _ hk
    rw [hl] at hchain
    have hl' : L.list (findIndex (blockAlign size)) = [] ++ a' :: post := hl
    obtain ⟨b, hb, -⟩ := W.inv.get_listed hl'
    have hbnd := W.inv.wf.bound hb
    have htop := W.inv.top
    refine absurd (congrArg Prod.fst (Except.ok.inj hok)) ?_
    rw [Heap.finishAllocate, hchain.1]
    show add32 a' 16 ≠ 0
    have hadd : add32 a' 16 = a' + 16 := add32_eq (by omega)
    rw [hadd]
    exact Nat.succ_ne_zero _

/-- A fresh heap with a single block of 16 bytes. -/
def tinyWorld : World := ⟨initHeap ⟨fun _ => 0, []⟩ 0x800 0x1000 0x1040 0x1010 16, []⟩

theorem tinyWorld_starts : Starts 0x1000 0x1040 tinyWorld :=
  ⟨by decide, by decide, by decide, ⟨⟨fun _ => 0, []⟩, 0x800, init_eq _ _ (by decide) (by decide)⟩,
    rfl⟩

/-- The block was allocated for 9 bytes and given back: it is on the list of its class. -/
theorem tinyWorld_run : Run tinyWorld [.allocate 9, .free 0x1020]
    ((tinyWorld.after (.allocate 9)).after (.free 0x1020)) := by
  have h₁ : Step tinyWorld (.allocate 9) (tinyWorld.after (.allocate 9)) := ⟨by decide, 8, rfl⟩
  have h₂ : Step (tinyWorld.after (.allocate 9)) (.free 0x1020)
      ((tinyWorld.after (.allocate 9)).after (.free 0x1020)) := ⟨by decide +kernel, 8, rfl⟩
  exact (Run.nil.snoc h₁).snoc h₂

theorem allocate_null_small_run :
    ∃ L, WorldInv 0x1000 0x1040 ((tinyWorld.after (.allocate 9)).after (.free 0x1020)) L ∧
      ∀ a n, MaxRun L a n → request 1 ≤ n →
        ∃ i, findIndex (blockAlign 1) < i ∧ i < otherIndex ∧ a ∈ L.list i ∧ n = allSizes i := by
  obtain ⟨L, W, hall⟩ := allocate_null_along_runs tinyWorld_starts tinyWorld_run
  have hnull : ∃ h', ((tinyWorld.after (.allocate 9)).after (.free 0x1020)).heap.allocate 8 1
      = .ok (0, h') := ⟨_, rfl⟩
  obtain ⟨h', hok⟩ := hnull
  exact ⟨L, W, hall 1 (by decide) (by decide) 8 h' hok⟩

/-- **One byte is asked for, and 16 are free**: `allocate` returns null. -/
theorem allocate_null_with_room :
    Starts 0x1000 0x1040 tinyWorld ∧
    ∃ w L bound h', Run tinyWorld [.allocate 9, .free 0x1020] w ∧
      WorldInv 0x1000 0x1040 w L ∧ w.heap.allocate bound 1 = .ok (0, h') ∧
      MaxRun L 0x1010 16 ∧ request 1 ≤ 16 := by
  obtain ⟨L, W⟩ := run_inv tinyWorld_starts tinyWorld_run tinyWorld_run.fits
  refine ⟨tinyWorld_starts, _, L, 8, _, tinyWorld_run, W, rfl, ?_, by decide⟩
  obtain ⟨n, hlen⟩ := W.inv.wf.tiles.first
  obtain ⟨b, hb, -⟩ := Layout.blk_of_len hlen
  have hsize : b.size = 16 := (W.inv.rep.size hb).symm.trans rfl
  have hfree : b.free = true := by
    cases hf : b.free with
    | true => rfl
    | false => exact absurd (W.held hb hf) (by decide)
  have hend : ∀ c, L.blk 0x1030 ≠ some c := fun c hc => by
    have := W.inv.wf.bound hc
    omega
  refine ⟨hsize ▸ .single hb hfree, fun p d hp _ => ?_, fun c hc => absurd hc (hend c)⟩
  have := (W.inv.wf.bound hp).1
  simp only [recSize]
  omega

end Metta.HeapMod
