/-
  Metta.MmuMod.UpdateRange — `update_range` touches exactly its pages.

  The loop goes on by as many pages as `update4k_pages` did, which stops at the
  end of a level 2 table.  So the first pages of the range are updated, up to
  the first whose table is missing.

    • `update4kPages_present` — the count of one pass,
    • `Rep.updateLoop` — the loop on the represented table,
    • `update_range_exact` — the entries in memory.
-/
import Metta.MmuMod.Ranges
import Metta.MmuMod.Refine

namespace Metta.MmuMod

open Metta.Machine

variable {s s' : State} {t : Table}

/-! ## §1. Addresses of a range. -/

/-- The entry of an address in the level 2 table that its level 1 entry points to, with
its shadow. -/
def entryOf (s : State) (va : Address) : Entry :=
  entryAt s.mem (l2Address s (pdeEntry va)) (pteEntry va)

/-- The level 2 table of an address is there. -/
def hasTable (s : State) (va : Address) : Bool := (s.l1Mapping (pdeEntry va)).isPresent

theorem pageNumber_pageAt {va : Address} {q : Nat} (h : va.toNat + 4096 * q < 2 ^ 32) :
    pageNumber (pageAt va q) = pageNumber va + q := by
  rw [pageNumber, pageNumber, pageAt_toNat]
  omega

theorem pageAt_zero (va : Address) : pageAt va 0 = va := by
  apply BitVec.eq_of_toNat_eq
  rw [pageAt_toNat, Nat.mul_zero, Nat.add_zero, Nat.mod_eq_of_lt va.isLt]

theorem pageAt_pageAt (va : Address) (q q' : Nat) :
    pageAt (pageAt va q) q' = pageAt va (q + q') := by
  rw [pageAt, pageAt, pageAt, BitVec.add_assoc, ← BitVec.ofNat_add, Nat.mul_add]

/-- Addresses of one page number have the same level 1 entry, those of one table too. -/
theorem pdeEntry_eq_of_div {va va' : Address} (h : pageNumber va / 1024 = pageNumber va' / 1024) :
    pdeEntry va = pdeEntry va' := by
  have hk := (pteEntry va).isLt
  have hk' := (pteEntry va').isLt
  rw [pageNumber_eq, pageNumber_eq] at h
  apply Fin.ext
  omega

/-! ## §2. One pass. -/

/-- The loop of `update4k_pages` ends with the pages or with the table. -/
theorem updateFrom_fst (l2va : Address) (l2idx : Nat) (flags : Flags) (sid : Sid) (n : Nat) :
    ∀ (i : Nat) (m : Memory), l2idx + i ≤ nL2Entries →
      (updateFrom l2va l2idx flags sid n i m).1 = min (i + n) (nL2Entries - l2idx) := by
  induction n with
  | zero =>
      intro i m hi
      rw [updateFrom]
      omega
  | succ n ih =>
      intro i m hi
      rw [updateFrom]
      by_cases hlt : i + l2idx < nL2Entries
      · rw [if_pos hlt, ih _ _ (by omega)]
        omega
      · rw [if_neg hlt]
        show i = _
        omega

/-- Only memory changes. -/
theorem update4kPages_state (s : State) (va : Address) (nPages : Nat) (pte : Page) (sid : Sid) :
    ∃ m, (update4kPages s va nPages pte sid).2 = { s with mem := m } := by
  rw [update4kPages]
  split
  · exact ⟨s.mem, rfl⟩
  · split
    · exact ⟨s.mem, rfl⟩
    · exact ⟨_, rfl⟩

theorem update4kPages_missing {va : Address} (h : hasTable s va = false) (nPages : Nat) (pte : Page)
    (sid : Sid) : update4kPages s va nPages pte sid = (0, s) := by
  rw [hasTable] at h
  rw [update4kPages, h]
  rfl

/-- **The count of one pass**: all that is left, or the rest of the table. -/
theorem Rep.update4kPages_present (R : Rep s t) {va : Address} (h : hasTable s va = true)
    (nPages : Nat) (pte : Page) (sid : Sid) :
    (MmuMod.update4kPages s va nPages pte sid).1 = min nPages (nL2Entries - pteEntry va) := by
  have h4mb : (s.l1Mapping (pdeEntry va)).is4mb = false := by
    obtain ⟨c, hdir⟩ := Option.isSome_iff_exists.mp ((R.isPresent_iff _).symm.trans h)
    rw [(R.backed hdir).mapping, l1Entry_is4mb]
  rw [hasTable] at h
  simp only [MmuMod.update4kPages, h, h4mb, Bool.not_true, Bool.false_eq_true, if_false]
  rw [updateFrom_fst _ _ _ _ _ _ _ (le_of_lt (pteEntry va).isLt), Nat.zero_add]

/-! ## §3. The loop. -/

/-- **The loop** updates the first `d` pages of the range, where `d` is the number of
pages before the first without a table, and no other page. -/
theorem Rep.updateLoop (pte : Page) (sid : Sid) (n : Nat) :
    ∀ {s : State} {t : Table} {virt : Address}, Rep s t → virt.toNat + 4096 * n ≤ 2 ^ 32 →
      ∃ (d : Nat) (m : Memory) (t' : Table),
        (∀ fuel ≥ n, updateLoop width4kib pte sid fuel virt n s = some { s with mem := m }) ∧
        Rep { s with mem := m } t' ∧ d ≤ n ∧
        (∀ i < d, hasTable s (pageAt virt i) = true) ∧
        (d < n → hasTable s (pageAt virt d) = false) ∧
        ∀ (j : Fin nL1Tables) (k : Fin nL2Entries), t'.lookup j k =
          if pageNumber virt ≤ 1024 * (j : Nat) + k ∧ 1024 * (j : Nat) + k < pageNumber virt + d then
            some (((t.lookup j k).getD Entry.blank).update pte.flags sid)
          else t.lookup j k := by
  induction n using Nat.strong_induction_on with
  | _ n ih =>
    intro s t virt R hend
    by_cases hn : n = 0
    · subst hn
      refine ⟨0, s.mem, t, fun fuel _ => ?_, R, le_rfl, fun i hi => absurd hi (Nat.not_lt_zero i),
        fun h => absurd h (lt_irrefl _), fun j k => ?_⟩
      · cases fuel <;> rfl
      · rw [if_neg (by omega)]
    cases htable : hasTable s virt with
    | false =>
        -- the first page has no table: the pass counts zero
        refine ⟨0, s.mem, t, fun fuel hfuel => ?_, R, Nat.zero_le n,
          fun i hi => absurd hi (Nat.not_lt_zero i), fun _ => ?_, fun j k => ?_⟩
        · obtain ⟨fuel, rfl⟩ : ∃ f, fuel = f + 1 := ⟨fuel - 1, by omega⟩
          simp only [MmuMod.updateLoop, if_neg hn, updatePages, if_true,
            update4kPages_missing htable]
        · rw [pageAt_zero]
          exact htable
        · rw [if_neg (by omega)]
    | true =>
        have hcount := R.update4kPages_present htable n pte sid
        obtain ⟨m₁, hstate⟩ := update4kPages_state s virt n pte sid
        obtain ⟨p, s₁, t₁, hpass, -, R₁, hlook₁⟩ := R.update4kPages virt n pte sid
        rw [hpass] at hcount hstate
        simp only at hcount hstate
        subst hstate
        have hk := (pteEntry virt).isLt
        have hpage := pageNumber_eq virt
        simp only [nL2Entries] at hcount
        have hpos : 0 < p := by omega
        have hle : p ≤ n := by omega
        have hdone : n - p = 0 ∨ virt.toNat + 4096 * p < 2 ^ 32 := by omega
        have hnext : (pageAt virt p).toNat + 4096 * (n - p) ≤ 2 ^ 32 := by
          rw [pageAt_toNat]
          omega
        obtain ⟨d, m, t', hrun, R', hd, hpresent, hmissing, hlook⟩ := ih (n - p) (by omega) R₁ hnext
        refine ⟨p + d, m, t', fun fuel hfuel => ?_, R', by omega, fun i hi => ?_, fun hlt => ?_,
          fun j k => ?_⟩
        · obtain ⟨fuel, rfl⟩ : ∃ f, fuel = f + 1 := ⟨fuel - 1, by omega⟩
          have hstep : virt + BitVec.ofNat 32 (p * 2 ^ width4kib) = pageAt virt p := by
            rw [pageAt, Nat.mul_comm]
            rfl
          simp only [MmuMod.updateLoop, if_neg hn, updatePages, if_true, hpass,
            if_neg (Nat.ne_of_gt hpos), hstep]
          exact hrun fuel (by omega)
        · by_cases hip : i < p
          · -- the pages of this pass share the table of the first
            have hsame : pdeEntry (pageAt virt i) = pdeEntry virt := by
              apply pdeEntry_eq_of_div
              rw [pageNumber_pageAt (by omega)]
              omega
            rw [hasTable, hsame]
            exact htable
          · have h := hpresent (i - p) (by omega)
            rw [pageAt_pageAt, show p + (i - p) = i by omega] at h
            exact h
        · have h := hmissing (by omega)
          rw [pageAt_pageAt] at h
          exact h
        · rw [hlook, hlook₁]
          have hj : (j = pdeEntry virt ∧ (pteEntry virt : Nat) ≤ k ∧ (k : Nat) < pteEntry virt + p) ↔
              pageNumber virt ≤ 1024 * (j : Nat) + k ∧ 1024 * (j : Nat) + k < pageNumber virt + p := by
            have hk' : (k : Nat) < 1024 := k.isLt
            rw [Fin.ext_iff]
            omega
          rw [if_congr hj rfl rfl]
          by_cases hd0 : d = 0
          · subst hd0
            rw [if_neg (by omega), Nat.add_zero]
          · have hvirt : pageNumber (pageAt virt p) = pageNumber virt + p :=
              pageNumber_pageAt (by omega)
            rw [hvirt]
            by_cases hin : pageNumber virt ≤ 1024 * (j : Nat) + k ∧
                1024 * (j : Nat) + k < pageNumber virt + p
            · rw [if_pos hin, if_neg (by omega), if_pos (by omega)]
            · rw [if_neg hin]
              exact if_congr (by omega) rfl rfl

/-! ## §4. The flags. -/

/-- The low bits that seven flags make. -/
def bitsOf (k w t c s o g : Bool) : BitVec 32 :=
  (if k then ia32PageGlobal else ia32PageUser)
    ||| (if w then ia32PageWritable else 0#32)
    ||| (if t then ia32PageWriteThrough else 0#32)
    ||| (if c then ia32PageCacheDisable else 0#32)
    ||| (if s then ia32PageSwapped else ia32PagePresent)
    ||| (if o then ia32PageCow else 0#32)
    ||| (if g then ia32PageGlobal else 0#32)

theorem flagBits_eq_bitsOf (f : Flags) :
    ∃ k w t c s o g : Bool, Page.flagBits f = bitsOf k w t c s o g :=
  ⟨decide (f &&& Page.kernelMode ≠ 0#32), decide (f &&& Page.writable ≠ 0#32),
    decide (f &&& Page.writeThrough ≠ 0#32), decide (f &&& Page.cacheDisable ≠ 0#32),
    decide (f &&& Page.swapped ≠ 0#32), decide (f &&& Page.copyOnWrite ≠ 0#32),
    decide (f &&& Page.global ≠ 0#32), by simp only [Page.flagBits, bitsOf, decide_eq_true_eq]⟩

theorem flags_setFlags (p : Page) (f : Flags) :
    (p.setFlags f).flags = (⟨Page.flagBits f⟩ : Page).flags :=
  Page.flags_congr fun _ hb => Page.setFlags_and p f hb

/-- Reading the flags of a page and setting them again gives the same bits. -/
theorem flagBits_flags (p : Page) (f : Flags) :
    Page.flagBits (p.setFlags f).flags = Page.flagBits f := by
  rw [flags_setFlags]
  obtain ⟨k, w, t, c, s, o, g, heq⟩ := flagBits_eq_bitsOf f
  rw [heq]
  clear heq
  revert k w t c s o g
  decide +kernel

theorem setFlags_flags (q p : Page) (f : Flags) : q.setFlags (p.setFlags f).flags = q.setFlags f := by
  rw [Page.setFlags, flagBits_flags, Page.setFlags]

/-! ## §5. `update_range`. -/

/-- The entry with new rights: the flags of the page table entry, and in the shadow the
sid and those flags as they read back. -/
def Entry.withRights (e : Entry) (flags : Flags) (sid : Sid) : Entry :=
  ⟨e.pte.setFlags flags, ⟨sid, (e.pte.setFlags flags).flags.setWidth 16⟩⟩

/-- The frame stays. -/
theorem Entry.withRights_frame (e : Entry) (flags : Flags) (sid : Sid) :
    (e.withRights flags sid).pte.frame = e.pte.frame :=
  Page.frame_setFlags _ _

theorem Entry.update_flags (e : Entry) (raw : Page) (flags : Flags) (sid : Sid) :
    e.update (raw.setFlags flags).flags sid = e.withRights flags sid := by
  rw [Entry.update, Entry.withRights, setFlags_flags, flags_setFlags raw, flags_setFlags e.pte]

/-- The entry of an address is its cell of the represented table. -/
theorem Rep.entryOf_eq (R : Rep s t) {va : Address} (h : hasTable s va = true) :
    entryOf s va = (t.lookup (pdeEntry va) (pteEntry va)).getD Entry.blank := by
  obtain ⟨c, hdir⟩ := Option.isSome_iff_exists.mp ((R.isPresent_iff _).symm.trans h)
  rw [entryOf, R.l2Address_eq hdir, R.entryAt_eq hdir]

/-- **`update_range` touches exactly its pages.**  It returns, and of the pages of the
range those before the first without a table, so all of them when each has one, get
their rights and sid and keep their frames; no other entry changes. -/
theorem update_range_exact (R : Rep s t) (range : VirtmemDesc)
    (hwidth : range.pageWidth = width4kib)
    (hend : range.startAddr.toNat + 4096 * range.nPages.toNat ≤ 2 ^ 32) (useGlobalPages : Bool)
    (rights : BitVec 32) (sid : Sid) (raw : Page) :
    ∃ (d : Nat) (m : Memory),
      (∀ fuel ≥ range.nPages.toNat,
        updateRange fuel useGlobalPages range rights sid raw s = some { s with mem := m }) ∧
      d ≤ range.nPages.toNat ∧
      (∀ i < d, hasTable s (pageAt range.startAddr i) = true) ∧
      (d = range.nPages.toNat ∨ hasTable s (pageAt range.startAddr d) = false) ∧
      (∀ i < d, ∀ va, va.toNat / 4096 = range.startAddr.toNat / 4096 + i →
        entryOf { s with mem := m } va
            = (entryOf s va).withRights (controlBits useGlobalPages rights 0#32 true) sid ∧
          (entryOf { s with mem := m } va).pte.frame = (entryOf s va).pte.frame) ∧
      ∀ va, hasTable s va = true → (∀ i < d, va.toNat / 4096 ≠ range.startAddr.toNat / 4096 + i) →
        entryOf { s with mem := m } va = entryOf s va := by
  obtain ⟨d, m, t', hrun, R', hd, hpresent, hmissing, hlook⟩ :=
    R.updateLoop (raw.setFlags (controlBits useGlobalPages rights 0#32 true)) sid
      range.nPages.toNat hend
  -- an address of a page that was updated has the new rights, any other its old entry
  have hentry : ∀ va, hasTable s va = true → entryOf { s with mem := m } va =
      if pageNumber range.startAddr ≤ pageNumber va ∧ pageNumber va < pageNumber range.startAddr + d
      then (entryOf s va).withRights (controlBits useGlobalPages rights 0#32 true) sid
      else entryOf s va := by
    intro va hva
    rw [R'.entryOf_eq (s := { s with mem := m }) hva, R.entryOf_eq hva, hlook, pageNumber_eq va]
    by_cases hin : pageNumber range.startAddr ≤ 1024 * (pdeEntry va : Nat) + pteEntry va ∧
        1024 * (pdeEntry va : Nat) + pteEntry va < pageNumber range.startAddr + d
    · rw [if_pos hin, if_pos hin, Option.getD_some, Entry.update_flags]
    · rw [if_neg hin, if_neg hin]
  refine ⟨d, m, fun fuel hfuel => ?_, hd, hpresent, ?_, fun i hi va hva => ?_, fun va hva hout => ?_⟩
  · simp only [updateRange, hwidth]
    exact hrun fuel hfuel
  · by_cases hlt : d < range.nPages.toNat
    · exact .inr (hmissing hlt)
    · exact .inl (le_antisymm hd (Nat.le_of_not_lt hlt))
  · have hpage : (pageAt range.startAddr i).toNat / 4096 = va.toNat / 4096 := by
      rw [pageAt_toNat]
      omega
    have hsame : pdeEntry va = pdeEntry (pageAt range.startAddr i) :=
      pdeEntry_eq_of_div (by rw [pageNumber, pageNumber, hpage])
    have htable : hasTable s va = true := by
      rw [hasTable, hsame]
      exact hpresent i hi
    have heq := hentry va htable
    rw [if_pos (by rw [pageNumber, pageNumber]; omega)] at heq
    exact ⟨heq, by rw [heq, Entry.withRights_frame]⟩
  · rw [hentry va hva, if_neg]
    rintro ⟨hlo, hhi⟩
    rw [pageNumber, pageNumber] at hlo hhi
    exact hout (va.toNat / 4096 - range.startAddr.toNat / 4096) (by omega) (by omega)

/-- Two pages across the end of a level 2 table, of which the second table is missing:
the first page is updated, the second not reached. -/
theorem update_range_exact_boundary :
    ∃ s m, hasTable s 0x3ff000#32 = true ∧ hasTable s 0x400000#32 = false ∧
      updateRange 2 false ⟨0x3ff000#32, 2#32, width4kib⟩ 1#32 5#16 ⟨0#32⟩ s
        = some { s with mem := m } ∧
      entryOf { s with mem := m } 0x3ff000#32
        = (entryOf s 0x3ff000#32).withRights (controlBits false 1#32 0#32 true) 5#16 := by
  have R := create_rep [] 0#32 0#32 ⟨fun _ => 0, []⟩
  rcases R.add4kPage 0x3ff000#32 ⟨0x1005#32⟩ 4#16 with ⟨-, -, hfull⟩ | ⟨s, t, hadd, R', -⟩
  · exact absurd hfull (by decide +kernel)
  have hs : _ = s := congrArg Prod.snd hadd
  have hfirst : hasTable s 0x3ff000#32 = true := by
    rw [← hs]
    decide +kernel
  have hsecond : hasTable s 0x400000#32 = false := by
    rw [← hs]
    decide +kernel
  obtain ⟨d, m, hrun, hle, hpresent, hend, hin, -⟩ :=
    update_range_exact R' ⟨0x3ff000#32, 2#32, width4kib⟩ rfl (by decide) false 1#32 5#16 ⟨0#32⟩
  have hpos : 0 < d := by
    by_contra h
    have hd : d = 0 := by omega
    subst hd
    rcases hend with h | h
    · exact absurd h (by decide)
    · rw [pageAt_zero, hfirst] at h
      cases h
  exact ⟨s, m, hfirst, hsecond, hrun 2 (by decide), (hin 0 hpos _ rfl).1⟩

end Metta.MmuMod
