/-
  Metta.MmuMod.Table — level 2 tables as memory contents.

  What the code reads from a chunk is a page table entry and its shadow.
  This file gives the value of such a read after each kind of write: an
  entry written to the same place, to another place, and a cleared chunk.
  Everything rests on one fact about addresses: the pages of the chunks of
  one pool are different pages, also where the pool wraps around 2 ^ 32.
-/
import Metta.MmuMod.Def

namespace Metta.MmuMod

open Metta.Machine

/-! ## §1. Page words. -/

namespace Page

theorem flagBits_and_pageMask (flags : Flags) : flagBits flags &&& pageMask = 0#32 := by
  unfold flagBits
  split_ifs <;> decide

/-- A mask of low bits sees of `set_flags` what it put there. -/
theorem setFlags_and (p : Page) (flags : Flags) {b : BitVec 32} (hb : pageMask &&& b = 0#32) :
    (p.setFlags flags).raw &&& b = flagBits flags &&& b := by
  rw [setFlags, BitVec.and_or_distrib_right, BitVec.and_assoc, hb, BitVec.and_zero,
    BitVec.zero_or]

/-- `set_flags` leaves the frame alone. -/
@[simp]
theorem frame_setFlags (p : Page) (flags : Flags) : (p.setFlags flags).frame = p.frame := by
  rw [frame, setFlags, BitVec.and_or_distrib_right, BitVec.and_assoc, BitVec.and_self,
    flagBits_and_pageMask, BitVec.or_zero, frame]

@[simp]
theorem frame_setFrame (p : Page) (f : Address) : (p.setFrame f).frame = f &&& pageMask := by
  rw [frame, setFrame, BitVec.and_or_distrib_right, BitVec.and_assoc, BitVec.and_assoc,
    BitVec.and_self, BitVec.not_and_self]
  simp

/-- A mask of low bits does not see `set_frame`. -/
theorem setFrame_and (p : Page) (f : Address) {b : BitVec 32} (hb : pageMask &&& b = 0#32) :
    (p.setFrame f).raw &&& b = p.raw &&& b := by
  have hnot : ~~~pageMask &&& b = b := by
    have h := BitVec.and_or_distrib_right (x := pageMask) (y := ~~~pageMask) (z := b)
    rw [BitVec.or_not_self, BitVec.allOnes_and, hb, BitVec.zero_or] at h
    exact h.symm
  rw [setFrame, BitVec.and_or_distrib_right, BitVec.and_assoc, hnot, BitVec.and_assoc, hb,
    BitVec.and_zero, BitVec.or_zero]

/-- The flags of a page are those of its low bits. -/
theorem flags_congr {p q : Page}
    (h : ∀ b : BitVec 32, pageMask &&& b = 0#32 → p.raw &&& b = q.raw &&& b) : p.flags = q.flags := by
  simp only [flags, h ia32PageWritable (by decide), h ia32PageUser (by decide),
    h ia32PageWriteThrough (by decide), h ia32PageCacheDisable (by decide),
    h ia32PageSwapped (by decide), h ia32PageCow (by decide), h ia32PageGlobal (by decide)]

/-- `set_frame` leaves the flags alone. -/
@[simp]
theorem flags_setFrame (p : Page) (f : Address) : (p.setFrame f).flags = p.flags :=
  flags_congr fun _ hb => setFrame_and p f hb

theorem isPresent_setFlags (p : Page) {flags : Flags} (h : flags &&& swapped = 0#32) :
    (p.setFlags flags).isPresent = true := by
  rw [isPresent, setFlags_and _ _ (by decide)]
  simp only [flagBits, h, ne_eq, not_true_eq_false, if_false]
  split_ifs <;> decide

theorem isPresent_setFrame (p : Page) (f : Address) : (p.setFrame f).isPresent = p.isPresent := by
  rw [isPresent, setFrame_and _ _ (by decide), isPresent]

/-- The rights of a page are never all clear, also in their lower half. -/
theorem flags_setWidth_ne_zero (p : Page) : p.flags.setWidth 16 ≠ 0#16 := by
  unfold flags
  split_ifs <;> decide

theorem flags_setWidth_setWidth (p : Page) : (p.flags.setWidth 16).setWidth 32 = p.flags := by
  unfold flags
  split_ifs <;> decide

end Page

/-! ## §2. Addresses. -/

/-- A multiple of the page size. -/
def PageAligned (a : Address) : Prop := a.toNat % 4096 = 0

theorem pageAligned_and_pageMask (a : Address) : PageAligned (a &&& pageMask) := by
  have hmask : pageMask.toNat = wordSize - 2 ^ 12 := by decide
  rw [PageAligned, BitVec.toNat_and, hmask, and_highMask a.isLt (by decide)]
  exact Nat.mul_mod_left _ _

theorem PageAligned.and_pageMask {a : Address} (h : PageAligned a) : a &&& pageMask = a := by
  have hmask : pageMask.toNat = wordSize - 2 ^ 12 := by decide
  apply BitVec.eq_of_toNat_eq
  rw [BitVec.toNat_and, hmask, and_highMask a.isLt (by decide)]
  unfold PageAligned at h
  omega

theorem pageAligned_pageAlignUp (a : Address) : PageAligned (pageAlignUp a) :=
  pageAligned_and_pageMask (a + 4096#32 - 1#32)

/-- The address of page `q` of the pages that start at `base`. -/
def pageAt (base : Address) (q : Nat) : Address := base + BitVec.ofNat 32 (4096 * q)

theorem pageAt_toNat {base : Address} (q : Nat) :
    (pageAt base q).toNat = (base.toNat + 4096 * q) % 2 ^ 32 := by
  simp [pageAt, BitVec.toNat_add, BitVec.toNat_ofNat]

theorem PageAligned.pageAt {base : Address} (h : PageAligned base) (q : Nat) :
    PageAligned (pageAt base q) := by
  unfold PageAligned at *
  rw [pageAt_toNat]
  omega

/-- **The pages of a pool are different pages**, also where it wraps. -/
theorem pageAt_inj {base : Address} {q q' : Nat} (hq : q < 2 ^ 20) (hq' : q' < 2 ^ 20)
    (h : pageAt base q = pageAt base q') : q = q' := by
  have h' := congrArg BitVec.toNat h
  rw [pageAt_toNat, pageAt_toNat] at h'
  omega

/-- The bytes of an entry of an aligned table. -/
theorem PageAligned.toNat_entry {a : Address} (h : PageAligned a) {k : Nat} (hk : k < 1024) :
    (a + 4#32 * BitVec.ofNat 32 k).toNat = a.toNat + 4 * k := by
  have ha := a.isLt
  unfold PageAligned at h
  rw [BitVec.toNat_add, BitVec.toNat_mul, BitVec.toNat_ofNat, BitVec.toNat_ofNat]
  omega

/-! ## §3. Entries in memory. -/

/-- A page table entry and its shadow. -/
structure Entry where
  pte : Page
  shadow : Shadow
  deriving DecidableEq, Repr

/-- What a cleared chunk holds everywhere. -/
def Entry.blank : Entry := ⟨⟨0#32⟩, ⟨0#16, 0#16⟩⟩

/-- The entry at index `k` of the chunk at `l2va`. -/
def entryAt (m : Memory) (l2va : Address) (k : Nat) : Entry :=
  ⟨readPte m l2va k, readShadow m l2va k⟩

/-- The three stores the code makes for an entry. -/
def writeEntry (m : Memory) (l2va : Address) (k : Nat) (pte : Page) (sid : Sid)
    (flags : Flags) : Memory :=
  writeShadow (writePte m l2va k pte) l2va k sid flags

/-- Two 4-byte slots with no byte in common. -/
def Apart (a b : Nat) : Prop := a + 4 ≤ b ∨ b + 4 ≤ a

theorem entryAt_congr {m m' : Memory} {l2va : Address} {k : Nat}
    (hpte : ∀ x, pteAddress l2va k ≤ x → x < pteAddress l2va k + 4 → m'.byte x = m.byte x)
    (hshadow : ∀ x, shadowAddress l2va k ≤ x → x < shadowAddress l2va k + 4 →
      m'.byte x = m.byte x) : entryAt m' l2va k = entryAt m l2va k := by
  have h1 := Memory.load32_congr hpte
  have h2 : m'.load16 (shadowAddress l2va k) = m.load16 (shadowAddress l2va k) :=
    Memory.load16_congr fun x _ _ => hshadow x (by omega) (by omega)
  have h3 : m'.load16 (shadowAddress l2va k + 2) = m.load16 (shadowAddress l2va k + 2) :=
    Memory.load16_congr fun x _ _ => hshadow x (by omega) (by omega)
  simp only [entryAt, readPte, readShadow, h1, h2, h3]

/-- An entry is read back as it was written. -/
theorem entryAt_writeEntry_same {m : Memory} {l2va : Address} {k : Nat} {pte : Page} {sid : Sid}
    {flags : Flags} (hapart : Apart (pteAddress l2va k) (shadowAddress l2va k)) :
    entryAt (writeEntry m l2va k pte sid flags) l2va k
      = ⟨pte, ⟨sid, flags.setWidth 16⟩⟩ := by
  have hpte : (writeEntry m l2va k pte sid flags).load32 (pteAddress l2va k) = pte.raw.toNat := by
    unfold Apart at hapart
    rw [writeEntry, writeShadow, Memory.load32_store16_ne _ _ _ _ (by omega),
      Memory.load32_store16_ne _ _ _ _ (by omega), writePte,
      Memory.load32_store32_same _ _ _ pte.raw.isLt]
  have hsid : (writeEntry m l2va k pte sid flags).load16 (shadowAddress l2va k) = sid.toNat := by
    rw [writeEntry, writeShadow, Memory.load16_store16_ne _ _ _ _ (by omega),
      Memory.load16_store16_same _ _ _ sid.isLt]
  have hflags : (writeEntry m l2va k pte sid flags).load16 (shadowAddress l2va k + 2)
      = (flags.setWidth 16).toNat := by
    rw [writeEntry, writeShadow, Memory.load16_store16_same _ _ _ (flags.setWidth 16).isLt]
  simp only [entryAt, readPte, readShadow, hpte, hsid, hflags, BitVec.ofNat_toNat,
    BitVec.setWidth_eq]

/-- An entry in other bytes does not change. -/
theorem entryAt_writeEntry_ne {m : Memory} {l2va l2va' : Address} {k k' : Nat} {pte : Page}
    {sid : Sid} {flags : Flags}
    (hpp : Apart (pteAddress l2va k) (pteAddress l2va' k'))
    (hps : Apart (pteAddress l2va k) (shadowAddress l2va' k'))
    (hsp : Apart (shadowAddress l2va k) (pteAddress l2va' k'))
    (hss : Apart (shadowAddress l2va k) (shadowAddress l2va' k')) :
    entryAt (writeEntry m l2va k pte sid flags) l2va' k' = entryAt m l2va' k' := by
  unfold Apart at *
  apply entryAt_congr <;> intro x hlo hhi
  all_goals
    rw [writeEntry, writeShadow, Memory.byte_store16_ne _ _ _ _ (by omega),
      Memory.byte_store16_ne _ _ _ _ (by omega), writePte,
      Memory.byte_store32_ne _ _ _ _ (by omega)]

/-! ## §4. Chunks of a pool. -/

/-- The address of chunk `c` of the pool at `base`. -/
def chunkAt (base : Address) (c : Nat) : Address := base + BitVec.ofNat 32 (l2Size * c)

theorem chunkAt_eq (base : Address) (c : Nat) : chunkAt base c = pageAt base (2 * c) := by
  rw [chunkAt, pageAt, l2Size, show 8 * 1024 * c = 4096 * (2 * c) by omega]

theorem shadow_chunkAt (base : Address) (c : Nat) :
    shadow (chunkAt base c) = pageAt base (2 * c + 1) := by
  rw [shadow, chunkAt_eq, pageAt, pageAt, BitVec.add_assoc, Nat.mul_add, BitVec.ofNat_add]

theorem PageAligned.chunkAt {base : Address} (h : PageAligned base) (c : Nat) :
    PageAligned (chunkAt base c) := by
  rw [chunkAt_eq]
  exact h.pageAt _

theorem chunkAt_inj {base : Address} {c c' : Nat} (hc : c < 2 ^ 19) (hc' : c' < 2 ^ 19)
    (h : chunkAt base c = chunkAt base c') : c = c' := by
  rw [chunkAt_eq, chunkAt_eq] at h
  have := pageAt_inj (by omega) (by omega) h
  omega

variable {base : Address}

theorem pteAddress_chunkAt (h : PageAligned base) (c : Nat) {k : Nat} (hk : k < 1024) :
    pteAddress (chunkAt base c) k = (pageAt base (2 * c)).toNat + 4 * k := by
  rw [pteAddress, (h.chunkAt c).toNat_entry hk, chunkAt_eq]

theorem shadowAddress_chunkAt (h : PageAligned base) (c : Nat) {k : Nat} (hk : k < 1024) :
    shadowAddress (chunkAt base c) k = (pageAt base (2 * c + 1)).toNat + 4 * k := by
  rw [shadowAddress, shadow_chunkAt, (h.pageAt _).toNat_entry hk]

/-- Slots of two pages of the pool are apart, unless they are the same slot. -/
theorem apart_of_ne (h : PageAligned base) {q q' k k' : Nat} (hq : q < 2 ^ 20)
    (hq' : q' < 2 ^ 20) (hk : k < 1024) (hk' : k' < 1024) (hne : q ≠ q' ∨ k ≠ k') :
    Apart ((pageAt base q).toNat + 4 * k) ((pageAt base q').toNat + 4 * k') := by
  have ha := h.pageAt q
  have ha' := h.pageAt q'
  have hpages : q ≠ q' → (pageAt base q).toNat ≠ (pageAt base q').toNat :=
    fun hqq heq => hqq (pageAt_inj hq hq' (BitVec.eq_of_toNat_eq heq))
  have hsame : q = q' → (pageAt base q).toNat = (pageAt base q').toNat := by
    intro hqq
    rw [hqq]
  unfold PageAligned at ha ha'
  unfold Apart
  omega

/-- **An entry of the pool is read back as it was written.** -/
theorem entryAt_chunkAt_same {m : Memory} {pte : Page} {sid : Sid} {flags : Flags}
    (h : PageAligned base) {c k : Nat} (hc : c < 2 ^ 19) (hk : k < 1024) :
    entryAt (writeEntry m (chunkAt base c) k pte sid flags) (chunkAt base c) k
      = ⟨pte, ⟨sid, flags.setWidth 16⟩⟩ := by
  apply entryAt_writeEntry_same
  rw [pteAddress_chunkAt h c hk, shadowAddress_chunkAt h c hk]
  exact apart_of_ne h (by omega) (by omega) hk hk (.inl (by omega))

/-- **A write to one entry of the pool changes no other.** -/
theorem entryAt_chunkAt_ne {m : Memory} {pte : Page} {sid : Sid} {flags : Flags}
    (h : PageAligned base) {c c' k k' : Nat} (hc : c < 2 ^ 19) (hc' : c' < 2 ^ 19)
    (hk : k < 1024) (hk' : k' < 1024) (hne : c ≠ c' ∨ k ≠ k') :
    entryAt (writeEntry m (chunkAt base c) k pte sid flags) (chunkAt base c') k'
      = entryAt m (chunkAt base c') k' := by
  apply entryAt_writeEntry_ne <;>
    simp only [pteAddress_chunkAt h _ hk, pteAddress_chunkAt h _ hk',
      shadowAddress_chunkAt h _ hk, shadowAddress_chunkAt h _ hk'] <;>
    exact apart_of_ne h (by omega) (by omega) hk hk' (by omega)

/-! ## §5. Clearing a chunk. -/

/-- A byte of page `q` of the pool is cleared with chunk `c` when the page is one
of the chunk's two. -/
theorem sub32_chunkAt (h : PageAligned base) {c q x : Nat} (hc : c < 2 ^ 19) (hq : q < 2 ^ 20)
    (hlo : (pageAt base q).toNat ≤ x) (hhi : x < (pageAt base q).toNat + 4096) :
    sub32 x (chunkAt base c).toNat < l2Size ↔ q = 2 * c ∨ q = 2 * c + 1 := by
  have hb := base.isLt
  unfold PageAligned at h
  rw [chunkAt_eq, pageAt_toNat]
  rw [pageAt_toNat] at hlo hhi
  simp only [sub32, l2Size, wordSize]
  omega

theorem entryAt_clear_same {m : Memory} (h : PageAligned base) {c k : Nat} (hc : c < 2 ^ 19)
    (hk : k < 1024) :
    entryAt (m.clear (chunkAt base c).toNat l2Size) (chunkAt base c) k = Entry.blank := by
  have hzero : ∀ q x, q = 2 * c ∨ q = 2 * c + 1 → (pageAt base q).toNat ≤ x →
      x < (pageAt base q).toNat + 4096 →
      (m.clear (chunkAt base c).toNat l2Size).byte x = 0 := by
    intro q x hq hlo hhi
    simp only [Memory.clear]
    rw [if_pos ((sub32_chunkAt h hc (by omega) hlo hhi).mpr hq)]
  have hpte := Memory.load32_eq_zero (m := m.clear (chunkAt base c).toNat l2Size)
    (a := (pageAt base (2 * c)).toNat + 4 * k)
    fun x _ _ => hzero (2 * c) x (.inl rfl) (by omega) (by omega)
  have hsid := Memory.load16_eq_zero (m := m.clear (chunkAt base c).toNat l2Size)
    (a := (pageAt base (2 * c + 1)).toNat + 4 * k)
    fun x _ _ => hzero (2 * c + 1) x (.inr rfl) (by omega) (by omega)
  have hflags := Memory.load16_eq_zero (m := m.clear (chunkAt base c).toNat l2Size)
    (a := (pageAt base (2 * c + 1)).toNat + 4 * k + 2)
    fun x _ _ => hzero (2 * c + 1) x (.inr rfl) (by omega) (by omega)
  simp only [entryAt, readPte, readShadow, pteAddress_chunkAt h c hk,
    shadowAddress_chunkAt h c hk, hpte, hsid, hflags]
  rfl

theorem entryAt_clear_ne {m : Memory} (h : PageAligned base) {c c' k : Nat} (hc : c < 2 ^ 19)
    (hc' : c' < 2 ^ 19) (hk : k < 1024) (hne : c' ≠ c) :
    entryAt (m.clear (chunkAt base c).toNat l2Size) (chunkAt base c') k
      = entryAt m (chunkAt base c') k := by
  have hkeep : ∀ q x, q = 2 * c' ∨ q = 2 * c' + 1 → (pageAt base q).toNat ≤ x →
      x < (pageAt base q).toNat + 4096 →
      (m.clear (chunkAt base c).toNat l2Size).byte x = m.byte x := by
    intro q x hq hlo hhi
    simp only [Memory.clear]
    rw [if_neg]
    rw [sub32_chunkAt h hc (by omega) hlo hhi]
    omega
  apply entryAt_congr <;> intro x hlo hhi
  · rw [pteAddress_chunkAt h c' hk] at hlo hhi
    exact hkeep (2 * c') x (.inl rfl) (by omega) (by omega)
  · rw [shadowAddress_chunkAt h c' hk] at hlo hhi
    exact hkeep (2 * c' + 1) x (.inr rfl) (by omega) (by omega)

end Metta.MmuMod
