/-
  Metta.MmuMod.Mappings — the mappings of the boot information page
  (`enter_mappings` of mmu_mod.cpp).

  `memory_required` counts the 4 MiB chunks of the mappings in a bitmap, with
  its own way of cutting an address; `enter_mappings` takes a level 2 table for
  each level 1 entry it meets.  Both see the same chunks.

    • `nL2Tables_eq` — the count of `memory_required`,
    • `enterPages` — the pages one after the other,
    • `initial_budget_suffices` — the state after `enter_mappings`.
-/
import Metta.MmuMod.Ranges
import Metta.MmuMod.Budget

namespace Metta.MmuMod

open Metta.Machine
open Metta.FramesMod (Ramtab EntryType MmapEntry physFrameNumber frameWidth ownerSystem)

/-! ## §1. `enter_mappings`. -/

/-- `is_non_cacheable`. -/
def isNonCacheable : EntryType → Bool
  | .reserved | .acpiReclaimable | .acpiNvs | .badMemory => true
  | _ => false

/-- The flags of a page: some physical memory is not cached, and the page of the level 1
table is global. -/
def mappingFlags (mmap : List MmapEntry) (useGlobalPages : Bool) (l1Mapping virt phys : Address) :
    Flags :=
  let flags := mmap.foldl (fun flags e =>
    if isNonCacheable e.type && decide (e.address ≤ phys.toNat)
        && decide (phys.toNat < (e.address + e.size) % 2 ^ 64) then
      flags ||| Page.cacheDisable
    else flags) Page.writable
  if useGlobalPages && virt == l1Mapping then flags ||| Page.global else flags

/-- The page table entry that `enter_mappings` makes. -/
def mappingPte (mmap : List MmapEntry) (useGlobalPages : Bool) (l1Mapping virt phys : Address) :
    Page :=
  ((⟨0#32⟩ : Page).setFrame phys).setFlags (mappingFlags mmap useGlobalPages l1Mapping virt phys)

/-- One page of a mapping; `none` is the `PANIC`. -/
def enterPage (mmap : List MmapEntry) (useGlobalPages : Bool) (l1Mapping : Address)
    (r : State × Ramtab) (virt phys : Address) : Option (State × Ramtab) :=
  match add4kPage r.1 virt (mappingPte mmap useGlobalPages l1Mapping virt phys) sidNull with
  | (false, _) => none
  | (true, s) => some (s, r.2.put (physFrameNumber phys.toNat) ownerSystem frameWidth .mapped)

namespace Mapping

/-- The virtual address of page `j`. -/
def virtOf (e : Mapping) (j : Nat) : Address := e.virt + (BitVec.ofNat 32 j <<< 12)

/-- The physical address of page `j`. -/
def physOf (e : Mapping) (j : Nat) : Address := e.phys + (BitVec.ofNat 32 j <<< 12)

end Mapping

/-- `enter_mappings`, for a level 1 table at `l1Mapping`. -/
def enterMappings (mmap : List MmapEntry) (useGlobalPages : Bool) (l1Mapping : Address)
    (vmap : List Mapping) (s : State) (rt : Ramtab) : Option (State × Ramtab) :=
  vmap.foldlM (fun r e =>
    (List.range e.nframes).foldlM (fun r j =>
      enterPage mmap useGlobalPages l1Mapping r (e.virtOf j) (e.physOf j)) r) (s, rt)

/-! ## §2. The pages of the mappings. -/

/-- The pages in the order of the loops, virtual and physical. -/
def pages (vmap : List Mapping) : List (Address × Address) :=
  vmap.flatMap fun e => (List.range e.nframes).map fun j => (e.virtOf j, e.physOf j)

theorem mem_pages {vmap : List Mapping} {p : Address × Address} :
    p ∈ pages vmap ↔ ∃ e ∈ vmap, ∃ j < e.nframes, (e.virtOf j, e.physOf j) = p := by
  simp only [pages, List.mem_flatMap, List.mem_map, List.mem_range]

/-- The level 1 entries of pages: the 4 MiB chunks they lie in. -/
def chunksOf (ps : List (Address × Address)) : Finset (Fin nL1Tables) :=
  (ps.map fun p => pdeEntry p.1).toFinset

/-- The chunks that the mappings touch. -/
def chunks (vmap : List Mapping) : Finset (Fin nL1Tables) := chunksOf (pages vmap)

theorem mem_chunksOf {ps : List (Address × Address)} {i : Fin nL1Tables} :
    i ∈ chunksOf ps ↔ ∃ p ∈ ps, pdeEntry p.1 = i := by
  rw [chunksOf, List.mem_toFinset, List.mem_map]

theorem chunksOf_cons (p : Address × Address) (ps : List (Address × Address)) :
    chunksOf (p :: ps) = insert (pdeEntry p.1) (chunksOf ps) := by
  rw [chunksOf, List.map_cons, List.toFinset_cons, chunksOf]

theorem enterMappings_eq (mmap : List MmapEntry) (useGlobalPages : Bool) (l1Mapping : Address)
    (vmap : List Mapping) (s : State) (rt : Ramtab) :
    enterMappings mmap useGlobalPages l1Mapping vmap s rt =
      (pages vmap).foldlM (fun r p => enterPage mmap useGlobalPages l1Mapping r p.1 p.2) (s, rt) := by
  rw [enterMappings]
  generalize (s, rt) = r
  induction vmap generalizing r with
  | nil => rfl
  | cons e vmap ih =>
      rw [pages, List.flatMap_cons, List.foldlM_append, List.foldlM_cons, List.foldlM_map]
      exact bind_congr fun r' => ih r'

/-! ## §3. The count of `memory_required`. -/

/-- The bit of an address set. -/
def setChunk (bitmap : Nat → BitVec 32) (va : Address) : Nat → BitVec 32 :=
  Function.update bitmap (bitmapIndex va) (bitmap (bitmapIndex va) ||| (1#32 <<< bitmapBit va))

theorem requiredBitmap_eq (vmap : List Mapping) :
    requiredBitmap vmap = (pages vmap).foldl (fun bitmap p => setChunk bitmap p.1) fun _ => 0#32 := by
  rw [pages, List.foldl_flatMap]
  simp only [List.foldl_map]
  rfl

theorem bitmapBit_lt (va : Address) : bitmapBit va < 32 := by
  rw [bitmapBit, BitVec.toNat_and]
  exact lt_of_le_of_lt Nat.and_le_right (by decide)

/-- **The two ways of cutting an address**: the word and the bit of the bitmap make the
level 1 index. -/
theorem pdeEntry_eq (va : Address) : (pdeEntry va : Nat) = 32 * bitmapIndex va + bitmapBit va := by
  have hva := va.isLt
  have hbit : bitmapBit va = va.toNat / 2 ^ 22 % 2 ^ 5 := by
    rw [← Nat.and_two_pow_sub_one_eq_mod, ← Nat.shiftRight_eq_div_pow]
    simp [bitmapBit, BitVec.toNat_and, BitVec.toNat_ushiftRight]
  have hindex : bitmapIndex va = va.toNat / 2 ^ 27 := by
    rw [bitmapIndex, BitVec.toNat_ushiftRight, Nat.shiftRight_eq_div_pow]
  rw [pdeEntry_div, hbit, hindex]
  omega

theorem getLsbD_setChunk (bitmap : Nat → BitVec 32) (va : Address) (i : Nat) {b : Nat} (hb : b < 32) :
    (setChunk bitmap va i).getLsbD b = true ↔
      (bitmap i).getLsbD b = true ∨ (bitmapIndex va = i ∧ bitmapBit va = b) := by
  have hone : (1#32 <<< bitmapBit va).getLsbD b = true ↔ bitmapBit va = b := by
    have hlt := bitmapBit_lt va
    rw [BitVec.getLsbD_shiftLeft, BitVec.getLsbD_one]
    simp only [hb, decide_true, Bool.true_and, Bool.and_eq_true, Bool.not_eq_true',
      decide_eq_false_iff_not, decide_eq_true_eq]
    omega
  by_cases hi : i = bitmapIndex va
  · subst hi
    rw [setChunk, Function.update_self, BitVec.getLsbD_or, Bool.or_eq_true, hone]
    simp only [true_and]
  · rw [setChunk, Function.update_of_ne hi]
    exact ⟨.inl, fun h => h.resolve_right fun hh => hi hh.1.symm⟩

/-- A bit of the bitmap tells whether its chunk is touched. -/
theorem getLsbD_foldl (ps : List (Address × Address)) (i : Nat) {b : Nat} (hb : b < 32) :
    ∀ bitmap : Nat → BitVec 32,
      (ps.foldl (fun bitmap p => setChunk bitmap p.1) bitmap i).getLsbD b = true ↔
        (bitmap i).getLsbD b = true ∨ ∃ p ∈ ps, bitmapIndex p.1 = i ∧ bitmapBit p.1 = b := by
  induction ps with
  | nil =>
      intro bitmap
      simp only [List.foldl_nil, List.not_mem_nil, false_and, exists_false, or_false]
  | cons p ps ih =>
      intro bitmap
      rw [List.foldl_cons, ih, getLsbD_setChunk _ _ _ hb, List.exists_mem_cons_iff, or_assoc]

theorem getLsbD_requiredBitmap (vmap : List Mapping) {i b : Nat} (hb : b < 32)
    {k : Fin nL1Tables} (hk : (k : Nat) = 32 * i + b) :
    (requiredBitmap vmap i).getLsbD b = true ↔ k ∈ chunks vmap := by
  rw [requiredBitmap_eq, getLsbD_foldl _ _ hb, chunks, mem_chunksOf]
  simp only [BitVec.getLsbD_zero, Bool.false_eq_true, false_or]
  refine exists_congr fun p => and_congr_right fun _ => ?_
  have hlt := bitmapBit_lt p.1
  have heq := pdeEntry_eq p.1
  rw [Fin.ext_iff]
  omega

theorem countBits_eq (n : Nat) : ∀ w : BitVec 32,
    countBits n w = ((Finset.range n).filter fun b => w.getLsbD b = true).card := by
  induction n with
  | zero => intro w; rfl
  | succ n ih =>
      intro w
      have hzero : w &&& 1#32 ≠ 0#32 ↔ w.getLsbD 0 = true := by
        rw [ne_eq, ← BitVec.toNat_inj, BitVec.toNat_and, BitVec.getLsbD, Nat.testBit_zero]
        simp only [BitVec.toNat_ofNat, Nat.reduceMod, Nat.reducePow, Nat.and_one_is_mod,
          decide_eq_true_eq, Nat.zero_mod]
        omega
      rw [Finset.card_filter, Finset.sum_range_succ', ← Finset.card_filter, countBits]
      by_cases hw : w = 0#32
      · simp [hw]
      · rw [if_neg hw, ih, if_congr hzero rfl rfl, Nat.add_comm]
        simp only [BitVec.getLsbD_ushiftRight, Nat.add_comm 1]

/-- **The count of `memory_required`**: one table for each chunk, and the margin. -/
theorem nL2Tables_eq (vmap : List Mapping) : nL2Tables vmap = (chunks vmap).card + nExtraL2s := by
  have hsum : ∀ (n : Nat) (f : Nat → Nat),
      ((List.range n).map f).sum = ∑ i ∈ Finset.range n, f i := fun _ _ => rfl
  -- a chunk for each pair of a word and a bit that is set in it
  have hbij : (chunks vmap).card = ∑ i ∈ Finset.range 32, ((Finset.range 32).filter fun b =>
      (requiredBitmap vmap i).getLsbD b = true).card := by
    rw [← Finset.card_sigma]
    refine Finset.card_bij (fun k _ => ⟨(k : Nat) / 32, (k : Nat) % 32⟩) ?_ ?_ ?_
    · intro k hk
      have hlt : (k : Nat) < 1024 := k.isLt
      rw [Finset.mem_sigma, Finset.mem_filter, Finset.mem_range, Finset.mem_range]
      have hk' : (k : Nat) = 32 * ((k : Nat) / 32) + (k : Nat) % 32 := by omega
      exact ⟨show (k : Nat) / 32 < 32 by omega, Nat.mod_lt _ (by decide),
        (getLsbD_requiredBitmap vmap (Nat.mod_lt _ (by decide)) hk').mpr hk⟩
    · intro k _ k' _ h
      have h₁ := congrArg Sigma.fst h
      have h₂ : (k : Nat) % 32 = (k' : Nat) % 32 := congrArg Sigma.snd h
      apply Fin.ext
      simp only at h₁
      omega
    · rintro ⟨i, b⟩ hp
      rw [Finset.mem_sigma, Finset.mem_filter, Finset.mem_range, Finset.mem_range] at hp
      obtain ⟨hi, hb, hbit⟩ := hp
      simp only at hi hb hbit
      refine ⟨⟨32 * i + b, by simp only [nL1Tables]; omega⟩,
        (getLsbD_requiredBitmap vmap hb rfl).mp hbit, ?_⟩
      have h₁ : (32 * i + b) / 32 = i := by omega
      have h₂ : (32 * i + b) % 32 = b := by omega
      simp only [h₁, h₂]
  rw [nL2Tables, hsum]
  simp only [countBits_eq]
  rw [← hbij]

/-! ## §4. The pages one after the other. -/

section

variable {mmap : List MmapEntry} {useGlobalPages : Bool} {l1Mapping : Address}

/-- The entries that `enter_mappings` makes are present. -/
theorem mappingPte_isPresent (virt phys : Address) :
    (mappingPte mmap useGlobalPages l1Mapping virt phys).isPresent = true := by
  apply Page.isPresent_setFlags
  have hfold : ∀ (mmap : List MmapEntry) (flags : Flags), flags &&& Page.swapped = 0#32 →
      mmap.foldl (fun flags e =>
        if isNonCacheable e.type && decide (e.address ≤ phys.toNat)
            && decide (phys.toNat < (e.address + e.size) % 2 ^ 64) then
          flags ||| Page.cacheDisable
        else flags) flags &&& Page.swapped = 0#32 := by
    intro mmap
    induction mmap with
    | nil => intro flags h; exact h
    | cons e mmap ih =>
        intro flags h
        rw [List.foldl_cons]
        apply ih
        split
        · rw [BitVec.and_or_distrib_right, h]
          decide
        · exact h
  have hflags := hfold mmap Page.writable (by decide)
  rw [mappingFlags]
  split
  · rw [BitVec.and_or_distrib_right, hflags]
    decide
  · exact hflags

/-- The write that a page makes. -/
def pageWrite (mmap : List MmapEntry) (useGlobalPages : Bool) (l1Mapping : Address)
    (p : Address × Address) : Write :=
  let pte := mappingPte mmap useGlobalPages l1Mapping p.1 p.2
  ⟨pageNumber p.1, some pte.frame, pte.flags, sidNull⟩

/-- What holds between the pages: every chunk taken serves a level 1 entry, the table
holds the map `f`, and its entries are present. -/
structure Entered (s : State) (f : Nat → Option Translation) : Prop where
  next : s.l2Next = (tables s).card
  rep : ∃ t : Table, Rep s t ∧ t.Agrees f ∧ ∀ j k e, t.lookup j k = some e → e.pte.isPresent = true

/-- **The pages of a list are all entered** when the pool has a chunk for each of theirs. -/
theorem enterPages (ps : List (Address × Address)) :
    ∀ {s : State} {f : Nat → Option Translation} {rt : Ramtab}, Entered s f →
      (tables s ∪ chunksOf ps).card ≤ s.l2Max →
      ∃ s' rt',
        ps.foldlM (fun r p => enterPage mmap useGlobalPages l1Mapping r p.1 p.2) (s, rt)
          = some (s', rt') ∧
        Entered s' ((ps.map (pageWrite mmap useGlobalPages l1Mapping)).foldl applyWrite f) ∧
        tables s' = tables s ∪ chunksOf ps ∧ s'.l2Max = s.l2Max := by
  induction ps with
  | nil =>
      intro s f rt E _
      exact ⟨s, rt, rfl, E, (Finset.union_empty _).symm, rfl⟩
  -- the pages one after the other; `chunksOf` are the tables that they need
  | cons p ps ih =>
      intro s f rt E hroom
      obtain ⟨t, R, A, hpresent⟩ := E.rep
      have hunion : tables s ∪ chunksOf (p :: ps) = insert (pdeEntry p.1) (tables s) ∪ chunksOf ps := by
        rw [chunksOf_cons, Finset.union_insert, Finset.insert_union]
      rw [hunion] at hroom
      rcases R.add4kPage_tables p.1 (mappingPte mmap useGlobalPages l1Mapping p.1 p.2) sidNull with
        ⟨-, hnew, hfull⟩ | ⟨s₁, t₁, hadd, R₁, hlook, htables, hmax, hnext⟩
      · -- the pool is used up, yet this page's chunk was counted
        have hle := (Finset.card_le_card Finset.subset_union_left).trans hroom
        rw [Finset.card_insert_of_notMem hnew, ← E.next, hfull] at hle
        exact absurd hle (Nat.not_succ_le_self _)
      · have E₁ : Entered s₁
            (applyWrite f (pageWrite mmap useGlobalPages l1Mapping p)) := by
          refine ⟨by have := E.next; omega, t₁, R₁, A.add hlook, fun j k e he => ?_⟩
          rw [hlook] at he
          split at he
          · cases he
            exact mappingPte_isPresent _ _
          · exact hpresent j k e he
        obtain ⟨s', rt', hrun, E', htables', hmax'⟩ :=
          @ih s₁ _ (rt.put (physFrameNumber p.2.toNat) ownerSystem frameWidth .mapped) E₁
            (by rw [htables, hmax]; exact hroom)
        refine ⟨s', rt', ?_, E', by rw [htables', htables, hunion], hmax'.trans hmax⟩
        have hpage : enterPage mmap useGlobalPages l1Mapping (s, rt) p.1 p.2
            = some (s₁, rt.put (physFrameNumber p.2.toNat) ownerSystem frameWidth .mapped) := by
          simp only [enterPage, hadd]
        rw [List.foldlM_cons, hpage]
        exact hrun

end

/-! ## §5. The last mapping wins. -/

/-- Of several writes to a page the last counts. -/
theorem foldl_applyWrite_mem {ws : List Write} {x : Nat} (hx : ∃ w ∈ ws, w.page = x)
    (hframe : ∀ w ∈ ws, w.frame ≠ none) :
    ∀ f : Nat → Option Translation, ∃ w ∈ ws, w.page = x ∧ ∃ frame, w.frame = some frame ∧
      ws.foldl applyWrite f x = some ⟨frame, w.flags, w.sid⟩ := by
  induction ws with
  | nil =>
      obtain ⟨w, hw, -⟩ := hx
      exact absurd hw List.not_mem_nil
  | cons w ws ih =>
      intro f
      rw [List.foldl_cons]
      by_cases hlater : ∃ w' ∈ ws, w'.page = x
      · obtain ⟨w', hw', hrest⟩ := ih hlater (fun v hv => hframe v (List.mem_cons_of_mem _ hv))
          (applyWrite f w)
        exact ⟨w', List.mem_cons_of_mem _ hw', hrest⟩
      · have hw : w.page = x := by
          obtain ⟨v, hv, hpage⟩ := hx
          rcases List.mem_cons.mp hv with rfl | hv
          · exact hpage
          · exact absurd ⟨v, hv, hpage⟩ hlater
        obtain ⟨frame, hf⟩ := Option.ne_none_iff_exists'.mp (hframe w List.mem_cons_self)
        refine ⟨w, List.mem_cons_self, hw, frame, hf, ?_⟩
        rw [foldl_applyWrite_ne (fun v hv h => hlater ⟨v, hv, h⟩), applyWrite, ← hw,
          Function.update_self, hf, Option.getD_some]

/-- A page of a mapping has one frame, also where the mapping wraps around. -/
theorem physOf_eq {e : Mapping} {j j' : Nat}
    (h : pageNumber (e.virtOf j) = pageNumber (e.virtOf j')) : e.physOf j = e.physOf j' := by
  have hoff : (BitVec.ofNat 32 j <<< 12) = (BitVec.ofNat 32 j' <<< 12) := by
    apply BitVec.eq_of_toNat_eq
    have hv := e.virt.isLt
    simp only [pageNumber, Mapping.virtOf, BitVec.toNat_add, BitVec.toNat_shiftLeft,
      BitVec.toNat_ofNat, Nat.shiftLeft_eq] at h ⊢
    omega
  rw [Mapping.physOf, Mapping.physOf, hoff]

/-- The map after `enter_mappings`, at a page of a mapping that no later mapping covers. -/
theorem written_pages (mmap : List MmapEntry) (useGlobalPages : Bool) (l1Mapping : Address)
    {pre post : List Mapping} {e : Mapping} {j : Nat} (hj : j < e.nframes)
    (hpost : ∀ e' ∈ post, ∀ j' < e'.nframes, pageNumber (e'.virtOf j') ≠ pageNumber (e.virtOf j)) :
    ∃ flags, written ((pages (pre ++ e :: post)).map (pageWrite mmap useGlobalPages l1Mapping))
        (pageNumber (e.virtOf j)) = some ⟨e.physOf j &&& pageMask, flags, sidNull⟩ := by
  have hsplit : pages (pre ++ e :: post)
      = pages pre ++ (pages [e] ++ pages post) := by
    simp only [pages, List.flatMap_append, List.flatMap_cons, List.flatMap_nil, List.append_nil]
  rw [hsplit, List.map_append, List.map_append, written_append, List.foldl_append,
    foldl_applyWrite_ne]
  · obtain ⟨w, hw, hpage, frame, hframe, heq⟩ :=
      @foldl_applyWrite_mem ((pages [e]).map (pageWrite mmap useGlobalPages l1Mapping))
        (pageNumber (e.virtOf j))
        ⟨_, List.mem_map_of_mem (mem_pages.mpr ⟨e, List.mem_singleton_self e, j, hj, rfl⟩), rfl⟩
        (by
          intro w hw
          obtain ⟨p, -, rfl⟩ := List.mem_map.mp hw
          exact Option.some_ne_none _)
        (written ((pages pre).map (pageWrite mmap useGlobalPages l1Mapping)))
    obtain ⟨p, hp, rfl⟩ := List.mem_map.mp hw
    obtain ⟨e', he', j', -, rfl⟩ := mem_pages.mp hp
    rw [List.mem_singleton] at he'
    subst he'
    refine ⟨(pageWrite mmap useGlobalPages l1Mapping (e'.virtOf j', e'.physOf j')).flags, ?_⟩
    have hphys : e'.physOf j' = e'.physOf j := physOf_eq hpage
    rw [heq, ← Option.some_inj.mp hframe, mappingPte, Page.frame_setFlags, Page.frame_setFrame, hphys]
    rfl
  · intro w hw
    obtain ⟨p, hp, rfl⟩ := List.mem_map.mp hw
    obtain ⟨e', he', j', hj', rfl⟩ := mem_pages.mp hp
    exact hpost e' he' j' hj'

/-! ## §6. The state after `enter_mappings`. -/

/-- **The initial pool suffices.**  Whatever mappings the boot information page has,
`enter_mappings` does not panic after `create`; the level 1 entries that get a table,
each one of its own, are the chunks the mappings touch; the margin is left; and every
page of a mapping that no later one covers is mapped to its frame there. -/
theorem initial_budget_suffices (mmap : List MmapEntry) (useGlobalPages : Bool)
    (vmap : List Mapping) (firstRange l2TablesOffset : Address) (mem : Memory) (rt : Ramtab) :
    ∃ s rt', enterMappings mmap useGlobalPages firstRange vmap
        (create vmap firstRange l2TablesOffset mem) rt = some (s, rt') ∧
      (∀ i, (s.l1Mapping i).isPresent = true ↔ i ∈ chunks vmap) ∧ Consistent s ∧
      s.l2Next = (chunks vmap).card ∧ (freeTables s).card = nExtraL2s ∧
      ∀ pre e post j, vmap = pre ++ e :: post → j < e.nframes →
        (∀ e' ∈ post, ∀ j' < e'.nframes, pageNumber (e'.virtOf j') ≠ pageNumber (e.virtOf j)) →
        ∀ va, pageNumber va = pageNumber (e.virtOf j) →
          isMapped s va = true ∧
          ∃ flags, translate s va = some ⟨e.physOf j &&& pageMask, flags, sidNull⟩ := by
  have hempty : tables (create vmap firstRange l2TablesOffset mem) = ∅ :=
    Finset.filter_eq_empty_iff.mpr fun _ _ =>
      show ¬ (⟨0#32⟩ : Page).isPresent = true by decide
  -- no table is there at first
  have E₀ : Entered (create vmap firstRange l2TablesOffset mem) (written []) :=
    ⟨by rw [hempty]; rfl, TwoLevel.empty, create_rep .., fun _ _ => rfl, fun _ _ _ h => nomatch h⟩
  have hmax : (create vmap firstRange l2TablesOffset mem).l2Max = (chunks vmap).card + nExtraL2s :=
    nL2Tables_eq vmap
  obtain ⟨s, rt', hrun, E, htables, hmax'⟩ :=
    @enterPages mmap useGlobalPages firstRange (pages vmap) _ _ rt E₀ (by
      rw [hempty, Finset.empty_union, hmax]
      exact Nat.le_add_right _ _)
  rw [hempty, Finset.empty_union] at htables
  obtain ⟨t, R, A, hpresent⟩ := E.rep
  have hnext : s.l2Next = (chunks vmap).card := by rw [E.next, htables, chunks]
  refine ⟨s, rt', by rw [enterMappings_eq, hrun], fun i => ?_, R.consistent, hnext, ?_, ?_⟩
  · rw [← mem_tables, htables, chunks]
  · rw [freeTables_card R E.next, hmax', hmax, hnext, Nat.add_sub_cancel_left]
  · -- no later entry writes to the page
    intro pre e post j hvmap hj hpost va hva
    obtain ⟨flags, hwritten⟩ := @written_pages mmap useGlobalPages firstRange pre post e j hj hpost
    have htrans := R.translate_eq va
    have hA := A (pdeEntry va) (pteEntry va)
    rw [← pageNumber_eq, hva, hvmap] at hA
    rw [hA.trans hwritten] at htrans
    obtain ⟨entry, hlook, -⟩ := Option.map_eq_some_iff.mp (hA.trans hwritten)
    refine ⟨?_, flags, htrans⟩
    rw [R.isMapped_eq, hlook]
    exact hpresent _ _ _ hlook

end Metta.MmuMod
