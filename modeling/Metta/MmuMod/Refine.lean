/-
  Metta.MmuMod.Refine — the page tables are a finite map.

  Two steps.  The state represents a two-level table (`Rep`): present level 1
  entries point to used chunks, no chunk under two entries, and every slot of
  such a chunk reads as the table's cell.  The table in turn agrees with the
  map that the log of successful writes leaves.

    • `Rep.ensureL2table`, `Rep.write`, `Rep.updateFrom` — what each piece of
      the code does to the represented table,
    • `Rep.add4kPage_succeeds`, `Rep.update4kPages_count` — which writes succeed,
    • `page_tables_refine_map` — translation through the tables gives the last
      write to a page, whatever calls were made.
-/
import Metta.MmuMod.Table
import Metta.Machine.TwoLevel

namespace Metta.MmuMod

open Metta.Machine

/-! ## §1. The represented table. -/

abbrev Table := TwoLevel (Fin nL1Tables) (Fin nL2Entries) Nat Entry

/-- The level 1 entry that `add4k_page` makes for a table at `l2pa`. -/
def l1Entry (l2pa : Address) : Page :=
  ((⟨0#32⟩ : Page).setFrame l2pa).setFlags (Page.writable ||| Page.writeThrough)

theorem l1Entry_isPresent (l2pa : Address) : (l1Entry l2pa).isPresent = true := by
  rw [Page.isPresent, l1Entry, Page.setFlags_and _ _ (by decide)]
  decide

theorem l1Entry_is4mb (l2pa : Address) : (l1Entry l2pa).is4mb = false := by
  rw [Page.is4mb, l1Entry, Page.setFlags_and _ _ (by decide)]
  decide

theorem l1Entry_frame {l2pa : Address} (h : PageAligned l2pa) : (l1Entry l2pa).frame = l2pa := by
  rw [l1Entry, Page.frame_setFlags, Page.frame_setFrame, h.and_pageMask]

/-- Level 1 entry `i` points to the used chunk `c`, by its physical address and
in `l1_virt` by its virtual one. -/
structure Backed (s : State) (i : Fin nL1Tables) (c : Nat) : Prop where
  lt : c < s.l2Max
  used : s.info c = .used
  mapping : s.l1Mapping i = l1Entry (chunkAt s.l2Phys c)
  virt : s.l1Virt i = ⟨chunkAt s.l2Virt c⟩

/-- The state holds the table `t`. -/
structure Rep (s : State) (t : Table) : Prop where
  virtAligned : PageAligned s.l2Virt
  physAligned : PageAligned s.l2Phys
  /-- The pool is at most half the address space. -/
  max : s.l2Max < 2 ^ 19
  next : s.l2Next ≤ s.l2Max
  free : ∀ {c : Nat}, s.l2Next ≤ c → s.info c = .free
  absent : ∀ {i : Fin nL1Tables}, t.dir i = none →
    s.l1Mapping i = ⟨0#32⟩ ∧ s.l1Virt i = ⟨0#32⟩
  backed : ∀ {i : Fin nL1Tables} {c : Nat}, t.dir i = some c → Backed s i c
  cells : ∀ {i : Fin nL1Tables} {c : Nat}, t.dir i = some c → ∀ k : Fin nL2Entries,
    entryAt s.mem (chunkAt s.l2Virt c) k = (t.cell c k).getD Entry.blank
  /-- Written entries have rights, which tells them from cleared ones. -/
  written : ∀ {c : Nat} {k : Fin nL2Entries} {e : Entry}, t.cell c k = some e →
    e.shadow.flags ≠ 0#16

namespace Rep

variable {s s' : State} {t : Table} {i : Fin nL1Tables} {c : Nat}

theorem isPresent_iff (R : Rep s t) (i : Fin nL1Tables) :
    (s.l1Mapping i).isPresent = (t.dir i).isSome := by
  cases hd : t.dir i with
  | none => rw [(R.absent hd).1]; decide
  | some c => rw [(R.backed hd).mapping, l1Entry_isPresent]; rfl

theorem chunk_lt (R : Rep s t) (hdir : t.dir i = some c) : c < 2 ^ 19 :=
  lt_trans (R.backed hdir).lt R.max

/-- Used chunks lie before the allocation hint. -/
theorem lt_next (R : Rep s t) (hdir : t.dir i = some c) : c < s.l2Next := by
  by_contra hc
  have hfree := R.free (Nat.le_of_not_lt hc)
  rw [(R.backed hdir).used] at hfree
  cases hfree

/-- The code finds the chunk that the level 1 entry points to. -/
theorem l2Address_eq (R : Rep s t) (hdir : t.dir i = some c) :
    l2Address s i = chunkAt s.l2Virt c := by
  rw [l2Address, (R.backed hdir).mapping, l1Entry_frame (R.physAligned.chunkAt c), chunkAt,
    chunkAt]
  grind

/-- The slot of a pair of indices reads as the table's value there. -/
theorem entryAt_eq (R : Rep s t) (hdir : t.dir i = some c) (k : Fin nL2Entries) :
    entryAt s.mem (chunkAt s.l2Virt c) k = (t.lookup i k).getD Entry.blank := by
  rw [R.cells hdir k, TwoLevel.lookup, hdir]
  rfl

/-! ## §2. Giving a level 1 entry its table. -/

/-- The allocation hint is the first free chunk. -/
theorem nextFree_eq (R : Rep s t) : nextFree s.info (s.l2Max - s.l2Next) s.l2Next = s.l2Next := by
  cases s.l2Max - s.l2Next with
  | zero => rfl
  | succ n => rw [nextFree, if_pos (R.free le_rfl)]

theorem allocL2table_eq (R : Rep s t) (hroom : s.l2Next ≠ s.l2Max) :
    allocL2table s = some (chunkAt s.l2Virt s.l2Next, chunkAt s.l2Phys s.l2Next,
      { s with
        info := Function.update s.info s.l2Next .used
        l2Next := s.l2Next + 1
        mem := s.mem.clear (chunkAt s.l2Virt s.l2Next).toNat l2Size }) := by
  simp only [allocL2table, R.nextFree_eq]
  rw [if_neg hroom]
  rfl

theorem allocL2table_none (R : Rep s t) (hfull : s.l2Next = s.l2Max) :
    allocL2table s = none := by
  simp only [allocL2table, R.nextFree_eq]
  rw [if_pos hfull]

/-- A chunk taken from the pool is new to the directory. -/
theorem fresh (R : Rep s t) (j : Fin nL1Tables) : t.dir j ≠ some s.l2Next :=
  fun h => absurd (R.lt_next h) (lt_irrefl _)

/-- The state after a chunk was taken for level 1 entry `i`. -/
theorem installed (R : Rep s t) (hnone : t.dir i = none) (hroom : s.l2Next ≠ s.l2Max) :
    Rep { s with
        info := Function.update s.info s.l2Next .used
        l2Next := s.l2Next + 1
        mem := s.mem.clear (chunkAt s.l2Virt s.l2Next).toNat l2Size
        l1Mapping := Function.update s.l1Mapping i (l1Entry (chunkAt s.l2Phys s.l2Next))
        l1Virt := Function.update s.l1Virt i ⟨chunkAt s.l2Virt s.l2Next⟩ }
      (t.install i s.l2Next R.fresh) := by
  have hlt : s.l2Next < s.l2Max := lt_of_le_of_ne R.next hroom
  -- a directory entry of the new table is the new one or an old one
  have hdir : ∀ {j : Fin nL1Tables} {c : Nat}, (t.install i s.l2Next R.fresh).dir j = some c →
      (j = i ∧ c = s.l2Next) ∨ (j ≠ i ∧ c ≠ s.l2Next ∧ t.dir j = some c) := by
    intro j c hj
    by_cases hji : j = i
    · subst hji
      simp only [TwoLevel.install, Function.update_self, Option.some_inj] at hj
      exact .inl ⟨rfl, hj.symm⟩
    · simp only [TwoLevel.install, Function.update_of_ne hji] at hj
      exact .inr ⟨hji, fun h => R.fresh j (h ▸ hj), hj⟩
  constructor
  case virtAligned => exact R.virtAligned
  case physAligned => exact R.physAligned
  case max => exact R.max
  case next => exact hlt
  case free =>
    intro c hc
    have hne : c ≠ s.l2Next := by
      intro h
      rw [h] at hc
      exact absurd hc (Nat.not_succ_le_self _)
    simp only [Function.update_of_ne hne]
    exact R.free (by have : s.l2Next + 1 ≤ c := hc; omega)
  case absent =>
    intro j hj
    have hji : j ≠ i := by
      intro h
      rw [h] at hj
      simp [TwoLevel.install] at hj
    simp only [TwoLevel.install, Function.update_of_ne hji] at hj ⊢
    exact R.absent hj
  case backed =>
    intro j c hj
    rcases hdir hj with ⟨rfl, rfl⟩ | ⟨hji, hc, hold⟩
    · exact ⟨hlt, Function.update_self .., Function.update_self .., Function.update_self ..⟩
    · have B := R.backed hold
      exact ⟨B.lt, (Function.update_of_ne hc ..).trans B.used,
        (Function.update_of_ne hji ..).trans B.mapping,
        (Function.update_of_ne hji ..).trans B.virt⟩
  case cells =>
    intro j c hj k
    rcases hdir hj with ⟨rfl, rfl⟩ | ⟨hji, hc, hold⟩
    · simp only [TwoLevel.install, Function.update_self, Option.getD_none]
      exact entryAt_clear_same R.virtAligned (lt_trans hlt R.max) k.isLt
    · simp only [TwoLevel.install, Function.update_of_ne hc]
      rw [entryAt_clear_ne R.virtAligned (lt_trans hlt R.max) (R.chunk_lt hold) k.isLt hc]
      exact R.cells hold k
  case written =>
    intro c k e hcell
    by_cases hc : c = s.l2Next
    · subst hc
      simp [TwoLevel.install] at hcell
    · simp only [TwoLevel.install, Function.update_of_ne hc] at hcell
      exact R.written hcell

/-- **The level 1 entry gets a table**, and no translation changes. -/
theorem ensureL2table (R : Rep s t) (h : ensureL2table s i = some s') :
    ∃ (t' : Table) (c : Nat), Rep s' t' ∧ t'.dir i = some c ∧
      ∀ j k, t'.lookup j k = t.lookup j k := by
  rw [MmuMod.ensureL2table, R.isPresent_iff] at h
  cases hd : t.dir i with
  | some c =>
      rw [hd, Option.isSome_some, if_pos rfl] at h
      cases h
      exact ⟨t, c, R, hd, fun _ _ => rfl⟩
  | none =>
      rw [hd, if_neg (by simp)] at h
      by_cases hfull : s.l2Next = s.l2Max
      · rw [R.allocL2table_none hfull] at h
        cases h
      · rw [R.allocL2table_eq hfull] at h
        cases h
        refine ⟨t.install i s.l2Next R.fresh, s.l2Next, ?_, ?_, fun j k => TwoLevel.lookup_install hd j k⟩
        · have hl1 := (R.absent hd).1
          have hvirt := (R.absent hd).2
          have hframe : (⟨0#32⟩ : Page).setFrame (chunkAt s.l2Virt s.l2Next)
              = ⟨chunkAt s.l2Virt s.l2Next⟩ := by
            simp [Page.setFrame, (R.virtAligned.chunkAt s.l2Next).and_pageMask]
          simp only [hl1, hvirt, hframe]
          exact R.installed hd hfull
        · simp [TwoLevel.install]

/-- Only a pool with no chunk left refuses. -/
theorem ensureL2table_none (R : Rep s t) (h : MmuMod.ensureL2table s i = none) :
    t.dir i = none ∧ s.l2Next = s.l2Max := by
  rw [MmuMod.ensureL2table, R.isPresent_iff] at h
  cases hd : t.dir i with
  | some c =>
      rw [hd, Option.isSome_some, if_pos rfl] at h
      cases h
  | none =>
      refine ⟨rfl, ?_⟩
      by_contra hroom
      rw [hd, if_neg (by simp), R.allocL2table_eq hroom] at h
      cases h

/-! ## §3. Writing entries. -/

/-- **One entry written**: one cell of the table changes. -/
theorem write (R : Rep s t) (hdir : t.dir i = some c) (k : Fin nL2Entries) (pte : Page) (sid : Sid)
    {flags : Flags} (hflags : flags.setWidth 16 ≠ 0#16) :
    Rep { s with mem := writeEntry s.mem (chunkAt s.l2Virt c) k pte sid flags }
      (t.write c k ⟨pte, ⟨sid, flags.setWidth 16⟩⟩) := by
  constructor
  case virtAligned => exact R.virtAligned
  case physAligned => exact R.physAligned
  case max => exact R.max
  case next => exact R.next
  case free => exact R.free
  case absent => exact R.absent
  case backed =>
    intro j d hj
    have B := R.backed hj
    exact ⟨B.lt, B.used, B.mapping, B.virt⟩
  case cells =>
    intro j d hj l
    have hj' : t.dir j = some d := hj
    -- the cell that is written to is that of one entry of one chunk
    by_cases hd : d = c
    · subst hd
      by_cases hl : l = k
      · subst hl
        simp only [TwoLevel.write, Function.update_self, Option.getD_some]
        exact entryAt_chunkAt_same R.virtAligned (R.chunk_lt hdir) l.isLt
      · simp only [TwoLevel.write, Function.update_self, Function.update_of_ne hl]
        rw [entryAt_chunkAt_ne R.virtAligned (R.chunk_lt hdir) (R.chunk_lt hj') k.isLt l.isLt
          (.inr fun h => hl (Fin.ext h.symm))]
        exact R.cells hj' l
    · simp only [TwoLevel.write, Function.update_of_ne hd]
      rw [entryAt_chunkAt_ne R.virtAligned (R.chunk_lt hdir) (R.chunk_lt hj') k.isLt l.isLt
        (.inl fun h => hd h.symm)]
      exact R.cells hj' l
  case written =>
    intro d l e hcell
    by_cases hd : d = c
    · subst hd
      simp only [TwoLevel.write, Function.update_self] at hcell
      by_cases hl : l = k
      · -- the new entry has the flags that were given
        subst hl
        rw [Function.update_self, Option.some_inj] at hcell
        rw [← hcell]
        exact hflags
      · rw [Function.update_of_ne hl] at hcell
        exact R.written hcell
    · simp only [TwoLevel.write, Function.update_of_ne hd] at hcell
      exact R.written hcell

end Rep

/-- What `update4k_pages` makes of an entry: other rights, another sid. -/
def Entry.update (e : Entry) (flags : Flags) (sid : Sid) : Entry :=
  ⟨e.pte.setFlags flags, ⟨sid, flags.setWidth 16⟩⟩

/-- **The loop of `update4k_pages`** gives the entries it counts their new rights,
blank ones included, and no other. -/
theorem Rep.updateFrom {s : State} {i : Fin nL1Tables} {c l2idx : Nat} {flags : Flags} {sid : Sid}
    (hflags : flags.setWidth 16 ≠ 0#16) (n : Nat) :
    ∀ {p : Nat} {m : Memory} {t : Table}, Rep { s with mem := m } t → t.dir i = some c →
      l2idx + p ≤ nL2Entries →
      ∃ (d : Nat) (m' : Memory) (t' : Table),
        updateFrom (chunkAt s.l2Virt c) l2idx flags sid n p m = (d, m') ∧
        l2idx + d ≤ nL2Entries ∧ p ≤ d ∧ Rep { s with mem := m' } t' ∧
        ∀ j k, t'.lookup j k =
          if j = i ∧ l2idx + p ≤ k ∧ k < l2idx + d then
            some (((t.lookup j k).getD Entry.blank).update flags sid)
          else t.lookup j k := by
  induction n with
  | zero =>
      intro p m t R _ hp
      refine ⟨p, m, t, rfl, hp, le_rfl, R, fun j k => ?_⟩
      rw [if_neg]
      rintro ⟨-, hlo, hhi⟩
      exact absurd hhi (Nat.not_lt_of_le hlo)
  | succ n ih =>
      intro p m t R hdir hp
      by_cases hlt : p + l2idx < nL2Entries
      · -- one entry, then the rest of the loop from the table it leaves
        have hk₀ : l2idx + p < nL2Entries := by omega
        have hread := congrArg Entry.pte (R.entryAt_eq hdir ⟨l2idx + p, hk₀⟩)
        have R₁ := R.write hdir ⟨l2idx + p, hk₀⟩
          ((readPte m (chunkAt s.l2Virt c) (l2idx + p)).setFlags flags) sid hflags
        obtain ⟨d, m', t', hdone, hend, hle, R', hlook⟩ :=
          ih R₁ hdir (show l2idx + (p + 1) ≤ _ by omega)
        -- the first entry was written, the rest are those of the loop behind it
        refine ⟨d, m', t', ?_, hend, by omega, R', fun j k => ?_⟩
        · rw [MmuMod.updateFrom, if_pos hlt]
          exact hdone
        rw [hlook j k, TwoLevel.lookup_write hdir]
        by_cases hji : j = i
        · subst hji
          by_cases hk : k = ⟨l2idx + p, hk₀⟩
          · subst hk
            rw [if_neg (by simp), if_pos ⟨rfl, rfl⟩,
              if_pos ⟨rfl, le_rfl, show l2idx + p < l2idx + d by omega⟩, Entry.update,
              ← hread]
            rfl
          · have hk' : (k : Nat) ≠ l2idx + p := fun h => hk (Fin.ext h)
            rw [if_neg (c := j = j ∧ k = _) (fun h => hk h.2)]
            simp only [true_and]
            refine if_congr ?_ rfl rfl
            omega
        · simp only [hji, false_and, if_false]
      · -- past the end of the chunk the loop stops
        refine ⟨p, m, t, by rw [MmuMod.updateFrom, if_neg hlt], hp, le_rfl, R, fun j k => ?_⟩
        rw [if_neg]
        rintro ⟨-, hlo, hhi⟩
        exact absurd hhi (Nat.not_lt_of_le hlo)

/-! ## §4. The calls. -/

variable {s s' : State} {t : Table}

/-- **`add4k_page`** writes one entry, unless it needs a chunk and none is left. -/
theorem Rep.add4kPage (R : Rep s t) (va : Address) (pte : Page) (sid : Sid) :
    (add4kPage s va pte sid = (false, s) ∧ t.dir (pdeEntry va) = none ∧ s.l2Next = s.l2Max) ∨
      ∃ (s' : State) (t' : Table), add4kPage s va pte sid = (true, s') ∧ Rep s' t' ∧
        ∀ j k, t'.lookup j k =
          if j = pdeEntry va ∧ k = pteEntry va then some ⟨pte, ⟨sid, pte.flags.setWidth 16⟩⟩
          else t.lookup j k := by
  simp only [MmuMod.add4kPage]
  cases hens : MmuMod.ensureL2table s (pdeEntry va) with
  | none => exact .inl ⟨rfl, R.ensureL2table_none hens⟩
  | some s₁ =>
      obtain ⟨t₁, c, R₁, hdir, hlook⟩ := R.ensureL2table hens
      have h4mb : (s₁.l1Mapping (pdeEntry va)).is4mb = false := by
        rw [(R₁.backed hdir).mapping, l1Entry_is4mb]
      refine .inr ⟨_, _, ?_, R₁.write hdir (pteEntry va) pte sid pte.flags_setWidth_ne_zero,
        fun j k => ?_⟩
      · simp only [h4mb, Bool.false_eq_true, if_false, R₁.l2Address_eq hdir]
        rfl
      · rw [TwoLevel.lookup_write hdir, hlook]

/-- **`update4k_pages`** updates the entries it counts, which all lie in the
level 2 table of the first. -/
theorem Rep.update4kPages (R : Rep s t) (va : Address) (nPages : Nat) (pte : Page) (sid : Sid) :
    ∃ (d : Nat) (s' : State) (t' : Table), update4kPages s va nPages pte sid = (d, s') ∧
      (pteEntry va : Nat) + d ≤ nL2Entries ∧ Rep s' t' ∧
      ∀ j k, t'.lookup j k =
        if j = pdeEntry va ∧ (pteEntry va : Nat) ≤ k ∧ k < pteEntry va + d then
          some (((t.lookup j k).getD Entry.blank).update pte.flags sid)
        else t.lookup j k := by
  have hidx : (pteEntry va : Nat) ≤ nL2Entries := le_of_lt (pteEntry va).isLt
  simp only [MmuMod.update4kPages, R.isPresent_iff]
  cases hdir : t.dir (pdeEntry va) with
  | none =>
      refine ⟨0, s, t, rfl, hidx, R, fun j k => ?_⟩
      rw [if_neg]
      rintro ⟨-, hlo, hhi⟩
      exact absurd hhi (Nat.not_lt_of_le hlo)
  | some c =>
      have h4mb : (s.l1Mapping (pdeEntry va)).is4mb = false := by
        rw [(R.backed hdir).mapping, l1Entry_is4mb]
      obtain ⟨d, m', t', hdone, hend, -, R', hlook⟩ :=
        @Rep.updateFrom s _ _ (pteEntry va) _ sid pte.flags_setWidth_ne_zero nPages 0 s.mem t R
          hdir hidx
      refine ⟨d, { s with mem := m' }, t', ?_, hend, R', hlook⟩
      simp only [Option.isSome_some, Bool.not_true, Bool.false_eq_true, if_false, h4mb,
        R.l2Address_eq hdir, hdone]

/-! ## §5. The map of pages. -/

/-- The virtual page number of an address. -/
def pageNumber (va : Address) : Nat := va.toNat / 4096

theorem pdeEntry_div (va : Address) : (pdeEntry va : Nat) = va.toNat / 2 ^ 22 % 2 ^ 10 := by
  rw [← Nat.and_two_pow_sub_one_eq_mod, ← Nat.shiftRight_eq_div_pow]
  simp [pdeEntry, BitVec.toNat_and, BitVec.toNat_ushiftRight]

theorem pageNumber_eq (va : Address) : pageNumber va = 1024 * pdeEntry va + pteEntry va := by
  have hva := va.isLt
  have hpte : (pteEntry va : Nat) = va.toNat / 2 ^ 12 % 2 ^ 10 := by
    rw [← Nat.and_two_pow_sub_one_eq_mod, ← Nat.shiftRight_eq_div_pow]
    simp [pteEntry, BitVec.toNat_and, BitVec.toNat_ushiftRight]
  rw [pdeEntry_div, hpte, pageNumber]
  omega

/-- What a page translates to. -/
structure Translation where
  frame : Address
  flags : Flags
  sid : Sid
  deriving DecidableEq, Repr

/-- The frame of the page table entry, the rights and the sid of its shadow. -/
def Entry.view (e : Entry) : Translation :=
  ⟨e.pte.frame, e.shadow.flags.setWidth 32, e.shadow.sid⟩

/-- The translation of a virtual address: the level 1 entry, the entry of the
level 2 table it points to, and its shadow.  A slot that is blank holds no
translation. -/
def translate (s : State) (va : Address) : Option Translation :=
  if (s.l1Mapping (pdeEntry va)).isPresent then
    let e := entryAt s.mem (l2Address s (pdeEntry va)) (pteEntry va)
    if e = Entry.blank then none else some e.view
  else none

/-- The processor's own test: the present bits of both levels. -/
def isMapped (s : State) (va : Address) : Bool :=
  (s.l1Mapping (pdeEntry va)).isPresent &&
    (readPte s.mem (l2Address s (pdeEntry va)) (pteEntry va)).isPresent

/-- A write to one page.  `update4k_pages` writes no frame. -/
structure Write where
  page : Nat
  frame : Option Address
  flags : Flags
  sid : Sid
  deriving DecidableEq, Repr

/-- The map after one more write: a page without a frame keeps the one it had. -/
def applyWrite (f : Nat → Option Translation) (w : Write) : Nat → Option Translation :=
  Function.update f w.page
    (some ⟨w.frame.getD ((f w.page).elim 0#32 Translation.frame), w.flags, w.sid⟩)

/-- The map that a log of writes leaves, oldest first. -/
def written (log : List Write) : Nat → Option Translation :=
  log.foldl applyWrite fun _ => none

theorem written_append (log log' : List Write) :
    written (log ++ log') = log'.foldl applyWrite (written log) := by
  rw [written, List.foldl_append]
  rfl

/-- The pages of one `update4k_pages`, in the order of its loop. -/
def updateWrites (page d : Nat) (flags : Flags) (sid : Sid) : List Write :=
  (List.range d).map fun i => ⟨page + i, none, flags, sid⟩

theorem foldl_updateWrites (f : Nat → Option Translation) (page d : Nat) (flags : Flags)
    (sid : Sid) (x : Nat) :
    (updateWrites page d flags sid).foldl applyWrite f x =
      if page ≤ x ∧ x < page + d then some ⟨(f x).elim 0#32 Translation.frame, flags, sid⟩
      else f x := by
  induction d with
  | zero =>
      rw [if_neg (by omega)]
      rfl
  | succ d ih =>
      rw [updateWrites, List.range_succ, List.map_append, List.foldl_append]
      simp only [List.map_cons, List.map_nil, List.foldl_cons, List.foldl_nil, applyWrite]
      by_cases hx : x = page + d
      · -- the page of the last write: no earlier one of the loop touched it
        subst hx
        rw [if_neg (by omega)] at ih
        rw [Function.update_self, if_pos (by omega), ← ih]
        rfl
      · rw [Function.update_of_ne hx]
        refine Eq.trans ih (if_congr ?_ rfl rfl)
        omega

/-- A call of one of the two functions. -/
inductive Call where
  | add4kPage (va : Address) (pte : Page) (sid : Sid)
  | update4kPages (va : Address) (nPages : Nat) (pte : Page) (sid : Sid)

/-- The writes that a call reports by its answer, and the state it leaves. -/
def exec (s : State) : Call → List Write × State
  | .add4kPage va pte sid =>
      let r := add4kPage s va pte sid
      (if r.1 then [⟨pageNumber va, some pte.frame, pte.flags, sid⟩] else [], r.2)
  | .update4kPages va nPages pte sid =>
      let r := update4kPages s va nPages pte sid
      (updateWrites (pageNumber va) r.1 pte.flags sid, r.2)

/-- The writes of a sequence of calls, oldest first, and the last state. -/
def run (s : State) : List Call → List Write × State
  | [] => ([], s)
  | c :: cs => ((exec s c).1 ++ (run (exec s c).2 cs).1, (run (exec s c).2 cs).2)

/-- The table holds the map `f`. -/
def Table.Agrees (t : Table) (f : Nat → Option Translation) : Prop :=
  ∀ (j : Fin nL1Tables) (k : Fin nL2Entries), (t.lookup j k).map Entry.view = f (1024 * j + k)

theorem Entry.view_update (e : Entry) (pte : Page) (sid : Sid) :
    (e.update pte.flags sid).view = ⟨e.pte.frame, pte.flags, sid⟩ := by
  simp only [Entry.view, Entry.update, Page.frame_setFlags, Page.flags_setWidth_setWidth]

/-- A page number has one pair of indices. -/
theorem page_inj {j j' : Fin nL1Tables} {k k' : Fin nL2Entries}
    (h : 1024 * (j : Nat) + k = 1024 * j' + k') : j = j' ∧ k = k' := by
  have hk := k.isLt
  have hk' := k'.isLt
  simp only [nL2Entries] at hk hk'
  constructor <;> apply Fin.ext <;> omega

/-- One entry written: one more write in the map. -/
theorem Table.Agrees.add {t' : Table} {f : Nat → Option Translation} (A : t.Agrees f)
    {va : Address} {pte : Page} {sid : Sid}
    (hlook : ∀ j k, t'.lookup j k =
      if j = pdeEntry va ∧ k = pteEntry va then some ⟨pte, ⟨sid, pte.flags.setWidth 16⟩⟩
      else t.lookup j k) :
    t'.Agrees (applyWrite f ⟨pageNumber va, some pte.frame, pte.flags, sid⟩) := by
  intro j k
  simp only [applyWrite, Option.getD_some]
  rw [hlook, pageNumber_eq]
  by_cases hjk : j = pdeEntry va ∧ k = pteEntry va
  · obtain ⟨rfl, rfl⟩ := hjk
    rw [if_pos ⟨rfl, rfl⟩, Function.update_self, Option.map_some, Entry.view,
      Page.flags_setWidth_setWidth]
  · rw [if_neg hjk, Function.update_of_ne fun h => hjk (page_inj h), A]

theorem pageNumber_inj {va va' : Address} :
    pageNumber va = pageNumber va' ↔ pdeEntry va = pdeEntry va' ∧ pteEntry va = pteEntry va' := by
  constructor
  · intro h
    rw [pageNumber_eq, pageNumber_eq] at h
    exact page_inj h
  · rintro ⟨hj, hk⟩
    rw [pageNumber_eq, pageNumber_eq, hj, hk]

/-- **One call**: the tables go on holding the map of the log. -/
theorem exec_rep {f : Nat → Option Translation} (R : Rep s t) (A : t.Agrees f) (c : Call) :
    ∃ t' : Table, Rep (exec s c).2 t' ∧ t'.Agrees ((exec s c).1.foldl applyWrite f) := by
  cases c with
  | add4kPage va pte sid =>
      rcases R.add4kPage va pte sid with ⟨hfail, -⟩ | ⟨s', t', hok, R', hlook⟩
      · simp only [exec, hfail]
        exact ⟨t, R, A⟩
      · simp only [exec, hok]
        exact ⟨t', R', A.add hlook⟩
  | update4kPages va nPages pte sid =>
      obtain ⟨d, s', t', hdone, hend, R', hlook⟩ := R.update4kPages va nPages pte sid
      simp only [exec, hdone]
      refine ⟨t', R', fun j k => ?_⟩
      have hk := k.isLt
      rw [hlook, foldl_updateWrites, pageNumber_eq, ← A]
      -- the pages counted are those of the first page's level 2 table
      have hiff : (j = pdeEntry va ∧ (pteEntry va : Nat) ≤ k ∧ (k : Nat) < pteEntry va + d) ↔
          1024 * (pdeEntry va : Nat) + pteEntry va ≤ 1024 * j + k ∧
            1024 * (j : Nat) + k < 1024 * pdeEntry va + pteEntry va + d := by
        rw [Fin.ext_iff]
        simp only [nL2Entries] at hk hend
        omega
      by_cases hin : j = pdeEntry va ∧ (pteEntry va : Nat) ≤ k ∧ (k : Nat) < pteEntry va + d
      · rw [if_pos hin, if_pos (hiff.mp hin), Option.map_some, Entry.view_update]
        cases t.lookup j k <;> rfl
      · rw [if_neg hin, if_neg fun h => hin (hiff.mpr h)]

/-- **A sequence of calls.** -/
theorem run_rep (cs : List Call) :
    ∀ {s : State} {t : Table} {log : List Write}, Rep s t → t.Agrees (written log) →
      ∃ t' : Table, Rep (run s cs).2 t' ∧ t'.Agrees (written (log ++ (run s cs).1)) := by
  induction cs with
  | nil =>
      intro s t log R A
      refine ⟨t, R, ?_⟩
      rw [run, List.append_nil]
      exact A
  | cons c cs ih =>
      intro s t log R A
      obtain ⟨t₁, R₁, A₁⟩ := exec_rep R A c
      rw [← written_append] at A₁
      obtain ⟨t', R', A'⟩ := ih R₁ A₁
      rw [List.append_assoc] at A'
      exact ⟨t', R', A'⟩

/-! ## §6. From `create` on. -/

theorem countBits_le (n : Nat) : ∀ w : BitVec 32, countBits n w ≤ n := by
  induction n with
  | zero => intro w; exact le_rfl
  | succ n ih =>
      intro w
      have hrest := ih (w >>> 1)
      rw [countBits]
      split_ifs <;> omega

/-- The bitmap has 1024 bits, so the pool is small. -/
theorem nL2Tables_le (vmap : List Mapping) : nL2Tables vmap ≤ 1056 := by
  have hsum := List.sum_le_card_nsmul
    ((List.range 32).map fun i => countBits 32 (requiredBitmap vmap i)) 32
    (by
      intro x hx
      obtain ⟨i, -, rfl⟩ := List.mem_map.mp hx
      exact countBits_le 32 _)
  rw [List.length_map, List.length_range, smul_eq_mul] at hsum
  rw [nL2Tables, nExtraL2s]
  omega

theorem create_rep (vmap : List Mapping) (firstRange l2TablesOffset : Address) (mem : Memory) :
    Rep (create vmap firstRange l2TablesOffset mem) TwoLevel.empty where
  virtAligned := pageAligned_pageAlignUp _
  physAligned := pageAligned_pageAlignUp _
  max := lt_of_le_of_lt (nL2Tables_le vmap) (by decide)
  next := Nat.zero_le _
  free _ := rfl
  absent _ := ⟨rfl, rfl⟩
  backed h := nomatch h
  cells h := nomatch h
  written h := nomatch h

/-- Translation through the tables reads the represented table. -/
theorem Rep.translate_eq (R : Rep s t) (va : Address) :
    translate s va = (t.lookup (pdeEntry va) (pteEntry va)).map Entry.view := by
  rw [translate, R.isPresent_iff]
  cases hdir : t.dir (pdeEntry va) with
  | none =>
      rw [TwoLevel.lookup, hdir]
      rfl
  | some c =>
      simp only [Option.isSome_some, if_true, R.l2Address_eq hdir, R.entryAt_eq hdir]
      cases hlook : t.lookup (pdeEntry va) (pteEntry va) with
      | none => rfl
      | some e =>
          have hcell : t.cell c (pteEntry va) = some e := by
            rw [TwoLevel.lookup, hdir] at hlook
            exact hlook
          have hne : e ≠ Entry.blank := fun h => R.written hcell (by rw [h]; rfl)
          rw [Option.getD_some, if_neg hne, Option.map_some]

/-- The processor's test reads it too. -/
theorem Rep.isMapped_eq (R : Rep s t) (va : Address) :
    isMapped s va = ((t.lookup (pdeEntry va) (pteEntry va)).map fun e => e.pte.isPresent).getD false := by
  rw [isMapped, R.isPresent_iff]
  cases hdir : t.dir (pdeEntry va) with
  | none =>
      rw [TwoLevel.lookup, hdir]
      rfl
  | some c =>
      have hentry := congrArg Entry.pte (R.entryAt_eq hdir (pteEntry va))
      rw [R.l2Address_eq hdir, Option.isSome_some, Bool.true_and,
        show readPte s.mem (chunkAt s.l2Virt c) (pteEntry va) = _ from hentry]
      cases t.lookup (pdeEntry va) (pteEntry va) with
      | none => decide
      | some e => rfl

/-- A page without a translation is not present for the processor either. -/
theorem isMapped_eq_false {va : Address} (h : translate s va = none) :
    isMapped s va = false := by
  simp only [translate] at h
  rw [isMapped]
  split at h
  next hpresent =>
    split at h
    next hblank =>
      have hpte := congrArg Entry.pte hblank
      rw [show readPte s.mem (l2Address s (pdeEntry va)) (pteEntry va) = ⟨0#32⟩ from hpte]
      exact Bool.and_eq_false_imp.mpr fun _ => rfl
    next => cases h
  next hpresent =>
    rw [Bool.not_eq_true] at hpresent
    rw [hpresent, Bool.false_and]

/-- Present level 1 entries point to used chunks, different entries to different
chunks, and `l1_virt` holds the virtual address of the chunk whose physical
address is in `l1_mapping`. -/
structure Consistent (s : State) : Prop where
  chunk : ∀ i, (s.l1Mapping i).isPresent = true → ∃ c < s.l2Max, s.info c = .used ∧
    (s.l1Mapping i).frame = chunkAt s.l2Phys c ∧ s.l1Virt i = ⟨chunkAt s.l2Virt c⟩
  distinct : ∀ i j c, (s.l1Mapping i).isPresent = true → (s.l1Mapping j).isPresent = true →
    c < s.l2Max → (s.l1Mapping i).frame = chunkAt s.l2Phys c →
    (s.l1Mapping j).frame = chunkAt s.l2Phys c → i = j

theorem Rep.consistent (R : Rep s t) : Consistent s := by
  have hdir : ∀ i, (s.l1Mapping i).isPresent = true → ∃ c, t.dir i = some c := by
    intro i hi
    rw [R.isPresent_iff] at hi
    exact Option.isSome_iff_exists.mp hi
  have hframe : ∀ {i c}, t.dir i = some c → (s.l1Mapping i).frame = chunkAt s.l2Phys c := by
    intro i c hc
    rw [(R.backed hc).mapping, l1Entry_frame (R.physAligned.chunkAt c)]
  constructor
  case chunk =>
    intro i hi
    obtain ⟨c, hc⟩ := hdir i hi
    have B := R.backed hc
    exact ⟨c, B.lt, B.used, hframe hc, B.virt⟩
  case distinct =>
    intro i j c hi hj hc hfi hfj
    obtain ⟨ci, hci⟩ := hdir i hi
    obtain ⟨cj, hcj⟩ := hdir j hj
    have hlt : c < 2 ^ 19 := lt_trans hc R.max
    have h1 : ci = c := chunkAt_inj (R.chunk_lt hci) hlt ((hframe hci).symm.trans hfi)
    have h2 : cj = c := chunkAt_inj (R.chunk_lt hcj) hlt ((hframe hcj).symm.trans hfj)
    exact t.inj (by rw [hci, h1]) (by rw [hcj, h2])

/-! ## §7. Which writes succeed. -/

/-- The chunks before the allocation hint are in use. -/
def UsedBefore (s : State) : Prop := ∀ c < s.l2Next, s.info c = .used

theorem usedBefore_ensureL2table {i : Fin nL1Tables} (R : Rep s t) (U : UsedBefore s)
    (h : MmuMod.ensureL2table s i = some s') : UsedBefore s' := by
  rw [MmuMod.ensureL2table] at h
  by_cases hpresent : (s.l1Mapping i).isPresent = true
  · rw [if_pos hpresent] at h
    cases h
    exact U
  · rw [if_neg hpresent] at h
    by_cases hfull : s.l2Next = s.l2Max
    · rw [R.allocL2table_none hfull] at h
      cases h
    · -- the chunk at the hint is taken
      rw [R.allocL2table_eq hfull] at h
      cases h
      intro c hc
      by_cases hnext : c = s.l2Next
      · subst hnext
        exact Function.update_self ..
      · have hlt : c < s.l2Next + 1 := hc
        exact (Function.update_of_ne hnext ..).trans (U c (by omega))

theorem usedBefore_exec (R : Rep s t) (U : UsedBefore s) (c : Call) : UsedBefore (exec s c).2 := by
  cases c with
  | add4kPage va pte sid =>
      simp only [exec, MmuMod.add4kPage]
      cases hens : MmuMod.ensureL2table s (pdeEntry va) with
      | none => exact U
      | some s₁ =>
          have U₁ := usedBefore_ensureL2table R U hens
          simp only
          split_ifs <;> exact U₁
  | update4kPages va nPages pte sid =>
      simp only [exec, MmuMod.update4kPages]
      split_ifs <;> exact U

theorem usedBefore_run (cs : List Call) :
    ∀ {s : State} {t : Table} {f : Nat → Option Translation}, Rep s t → t.Agrees f →
      UsedBefore s → UsedBefore (run s cs).2 := by
  induction cs with
  | nil => intro s t f _ _ U; exact U
  | cons c cs ih =>
      intro s t f R A U
      obtain ⟨t₁, R₁, A₁⟩ := exec_rep R A c
      exact ih R₁ A₁ (usedBefore_exec R U c)

/-- A page is written when its level 2 table is there, or a chunk is left for it. -/
theorem Rep.add4kPage_succeeds (R : Rep s t) (U : UsedBefore s) (va : Address) (pte : Page)
    (sid : Sid) : (MmuMod.add4kPage s va pte sid).1 = true ↔
      (s.l1Mapping (pdeEntry va)).isPresent = true ∨ ∃ c < s.l2Max, s.info c = .free := by
  rcases R.add4kPage va pte sid with ⟨hfail, hdir, hfull⟩ | ⟨s', t', hok, -, -⟩
  · rw [hfail, R.isPresent_iff, hdir]
    constructor
    · intro h
      cases h
    · intro h
      rcases h with h | ⟨c, hc, hfree⟩
      · cases h
      · rw [U c (hfull ▸ hc)] at hfree
        cases hfree
  · rw [hok]
    refine ⟨fun _ => ?_, fun _ => rfl⟩
    by_cases hpresent : (s.l1Mapping (pdeEntry va)).isPresent = true
    · exact .inl hpresent
    · refine .inr ⟨s.l2Next, lt_of_le_of_ne R.next fun hfull => ?_, R.free le_rfl⟩
      -- without a chunk the call would have failed
      rw [MmuMod.add4kPage, MmuMod.ensureL2table, if_neg hpresent, R.allocL2table_none hfull] at hok
      cases hok

theorem updateFrom_count (l2va : Address) (l2idx : Nat) (flags : Flags) (sid : Sid) (n : Nat) :
    ∀ {i : Nat} {m : Memory}, i + l2idx ≤ nL2Entries →
      (MmuMod.updateFrom l2va l2idx flags sid n i m).1 = min (i + n) (nL2Entries - l2idx) := by
  induction n with
  | zero =>
      intro i m hi
      rw [MmuMod.updateFrom]
      omega
  | succ n ih =>
      intro i m hi
      rw [MmuMod.updateFrom]
      split_ifs with hlt
      · rw [ih (by omega), Nat.add_right_comm, Nat.add_assoc]
      · simp only
        omega

/-- The pages up to the end of the level 2 table are updated, if there is one. -/
theorem Rep.update4kPages_count (R : Rep s t) (va : Address) (nPages : Nat) (pte : Page) (sid : Sid) :
    (MmuMod.update4kPages s va nPages pte sid).1 =
      if (s.l1Mapping (pdeEntry va)).isPresent then min nPages (nL2Entries - pteEntry va) else 0 := by
  have hidx : (pteEntry va : Nat) ≤ nL2Entries := le_of_lt (pteEntry va).isLt
  simp only [MmuMod.update4kPages, R.isPresent_iff]
  cases hdir : t.dir (pdeEntry va) with
  | none => rfl
  | some c =>
      have h4mb : (s.l1Mapping (pdeEntry va)).is4mb = false := by
        rw [(R.backed hdir).mapping, l1Entry_is4mb]
      simp only [Option.isSome_some, Bool.not_true, Bool.false_eq_true, if_false, if_true, h4mb]
      rw [updateFrom_count _ _ _ _ _ (by omega), Nat.zero_add]

/-! ## §8. The refinement. -/

/-- A write leaves the other pages alone. -/
theorem foldl_applyWrite_ne {ws : List Write} {x : Nat} (hx : ∀ w ∈ ws, w.page ≠ x) :
    ∀ f : Nat → Option Translation, ws.foldl applyWrite f x = f x := by
  induction ws with
  | nil => intro f; rfl
  | cons w ws ih =>
      intro f
      rw [List.foldl_cons, ih fun w' hw' => hx w' (List.mem_cons_of_mem _ hw'), applyWrite,
        Function.update_of_ne (hx w List.mem_cons_self).symm]

/-- **The page tables are a finite map.**  Whatever calls are made after `create`,
every address translates to what the last writes to its page left, and to
nothing when there were none; a call changes the translation of the pages it
writes and of no other; the level 1 arrays and the chunks stay consistent; and
writes succeed where there is a level 2 table, for a new page also where a
chunk is free. -/
theorem page_tables_refine_map (vmap : List Mapping) (firstRange l2TablesOffset : Address)
    (mem : Memory) (cs : List Call) :
    let log := (run (create vmap firstRange l2TablesOffset mem) cs).1
    let s := (run (create vmap firstRange l2TablesOffset mem) cs).2
    (∀ va, translate s va = written log (pageNumber va)) ∧
      (∀ va, written log (pageNumber va) = none → isMapped s va = false) ∧
      (∀ c va, (∀ w ∈ (exec s c).1, w.page ≠ pageNumber va) →
        translate (exec s c).2 va = translate s va) ∧
      Consistent s ∧
      (∀ va pte sid, (add4kPage s va pte sid).1 = true ↔
        (s.l1Mapping (pdeEntry va)).isPresent = true ∨ ∃ c < s.l2Max, s.info c = .free) ∧
      ∀ va nPages pte sid, (update4kPages s va nPages pte sid).1 =
        if (s.l1Mapping (pdeEntry va)).isPresent then min nPages (nL2Entries - pteEntry va)
        else 0 := by
  intro log s
  have hempty : Table.Agrees TwoLevel.empty (written []) := fun _ _ => rfl
  have hcreate := create_rep vmap firstRange l2TablesOffset mem
  obtain ⟨t, R, A⟩ := run_rep cs hcreate hempty
  have U : UsedBefore s := usedBefore_run cs hcreate hempty fun c hc => absurd hc (Nat.not_lt_zero c)
  have htrans : ∀ va, translate s va = written log (pageNumber va) := by
    intro va
    rw [R.translate_eq va, A, pageNumber_eq]
    rfl
  refine ⟨htrans, ?_, ?_, R.consistent, R.add4kPage_succeeds U, R.update4kPages_count⟩
  · intro va hnone
    exact isMapped_eq_false ((htrans va).trans hnone)
  · intro c va hother
    obtain ⟨t', R', A'⟩ := exec_rep R A c
    rw [R'.translate_eq, A', R.translate_eq, A, ← pageNumber_eq]
    exact foldl_applyWrite_ne hother _

/-- A page written and then given other rights, and a page behind the end of its table. -/
def twoWrites : List Call :=
  [.add4kPage 0x3ff000#32 ⟨0x1005#32⟩ 4#16, .update4kPages 0x3ff000#32 2 ⟨0x2003#32⟩ 7#16]

theorem page_tables_refine_map_written :
    let s := (run (create [] 0#32 0#32 ⟨fun _ => 0, []⟩) twoWrites).2
    translate s 0x3ff123#32 = some ⟨0x1000#32, (⟨0x2003#32⟩ : Page).flags, 7#16⟩ ∧
      translate s 0x400000#32 = none ∧ (add4kPage s 0x400000#32 ⟨0x3005#32⟩ 4#16).1 = true := by
  obtain ⟨htranslate, -, -, -, hadd, -⟩ :=
    page_tables_refine_map [] 0#32 0#32 ⟨fun _ => 0, []⟩ twoWrites
  have hlog : (run (create [] 0#32 0#32 ⟨fun _ => 0, []⟩) twoWrites).1 =
      [⟨0x3ff, some 0x1000#32, (⟨0x1005#32⟩ : Page).flags, 4#16⟩,
        ⟨0x3ff, none, (⟨0x2003#32⟩ : Page).flags, 7#16⟩] := by decide +kernel
  refine ⟨?_, ?_, ?_⟩
  · rw [htranslate, hlog]
    decide
  · rw [htranslate, hlog]
    decide
  · rw [hadd]
    exact .inr ⟨1, by decide +kernel, by decide +kernel⟩

end Metta.MmuMod
