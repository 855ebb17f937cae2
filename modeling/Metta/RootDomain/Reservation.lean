/-
  Metta.RootDomain.Reservation — the memory that the mmu module takes at boot
  does not run into memory in use, from mmu_module_v1_create of
  modules/tcb/platform/pc99/mmu_mod/mmu_mod.cpp.

  The module looks for high memory, rounds the address up to a page and takes
  the memory.  The search tests the size before the rounding, takes an entry in
  use to end at its last address, cuts the entries of the map to 32 bits, and
  its bound is a million.  So the range that is taken may be one in use:

    • `SafeRange` — what a range should be,
    • `Fits` — the gap that decides is not one of those,
    • `boot_reservation_safe_iff` — the range is as it should be exactly then.
-/
import Metta.Bootinfo.Gaps
import Metta.RootDomain.Bootstrap

namespace Metta.RootDomain

open Metta.Machine Metta.FramesMod
open Metta.Bootinfo

/-! ## §1. Ranges. -/

/-- The range lies in a free entry above 1 MiB, and no entry in use has any of it. -/
def SafeRange (es : List Page.MmapEntry) (range : Extent) : Prop :=
  (∃ e ∈ es, e.isFree = true ∧ 0x100000 ≤ e.baseAddr ∧ range.Within e.extent) ∧
  ∀ f ∈ es, f.isFree = false → range.Apart f.extent

/-- The search compares the range of `e` with the addresses that `f` really has. -/
def Compared (e f : Page.MmapEntry) : Prop := ¬ e.Wraps ∧ f.baseAddr + f.length ≤ 2 ^ 64

/-- The gap `[s, t)` of the entry `e` has the range even when it is rounded to a page. -/
structure GapFits (es : List Page.MmapEntry) (bytes : Nat) (e : Page.MmapEntry) (s t : Nat) :
    Prop where
  /-- The rounding does not go past the last page. -/
  rounds : s + 4096 ≤ wordSize
  /-- If the gap starts with a page, its first byte is not in use. -/
  first : 0 < bytes → s % 4096 = 0 → ∀ f ∈ es, f.isFree = false → ¬ f.extent.Has s
  /-- What the range has behind the gap, or of an entry that was not compared, is not in
  use. -/
  rest : ∀ f ∈ es, f.isFree = false → ∀ x, pageAlignUp s ≤ x → x < pageAlignUp s + bytes →
    t ≤ x ∨ ¬ Compared e f → ¬ f.extent.Has x
  /-- The entry is above 1 MiB and below 4 GiB and has the range, or another one has it. -/
  inside : (0x100000 ≤ e.baseAddr ∧ e.baseAddr < wordSize ∧
      pageAlignUp s + bytes ≤ e.baseAddr + e.length) ∨
    ∃ g ∈ es, g ≠ e ∧ g.isFree = true ∧ 0x100000 ≤ g.baseAddr ∧
      (⟨pageAlignUp s, bytes⟩ : Extent).Within g.extent

/-- The gap that decides has the range. -/
def Fits (es : List Page.MmapEntry) (bytes : Nat) : Prop :=
  ∀ e s t, Decides es bytes e s t → GapFits es bytes e s t

/-! ## §2. What the gap says about the range. -/

variable {es : List Page.MmapEntry} {bytes s t : Nat} {e f : Page.MmapEntry}

theorem pageAlignUp_round (h : s + 4096 ≤ wordSize) :
    s ≤ pageAlignUp s ∧ (pageAlignUp s = s → s % 4096 = 0) := by
  have heq := pageAlignUp_eq s
  rw [Nat.mod_eq_of_lt (by omega)] at heq
  omega

/-- An entry in use ends at its last address, if it has one. -/
theorem lt_end_of_has (hlen : f.baseAddr + f.length ≤ 2 ^ 64) {x : Nat} (hx : f.extent.Has x) :
    x ≤ f.end := by
  obtain ⟨hlo, hhi⟩ : f.baseAddr ≤ x ∧ x < f.baseAddr + f.length := hx
  have hend : f.end = f.baseAddr + f.length - 1 := by
    rw [Page.MmapEntry.end, show f.baseAddr + f.length + (2 ^ 64 - 1)
      = f.baseAddr + f.length - 1 + 2 ^ 64 by omega, Nat.add_mod_right]
    exact Nat.mod_eq_of_lt (by omega)
  omega

/-- Behind its first byte the gap has nothing of an entry that it was compared with. -/
theorem not_has_of_keeps (hkeeps : Keeps es e s t) (hf : f ∈ es) (hused : f.isFree = false)
    (hcmp : Compared e f) {x : Nat} (hs : s < x) (ht : x < t) : ¬ f.extent.Has x := by
  intro hx
  have hend := lt_end_of_has hcmp.2 hx
  obtain ⟨hlo, -⟩ : f.baseAddr ≤ x ∧ _ := hx
  rcases (hkeeps.1 hcmp.1).sides f hf hused with hleft | hright <;> omega

theorem start_le_of_keeps (hkeeps : Keeps es e s t) (hbase : e.baseAddr < wordSize) :
    e.baseAddr ≤ s := by
  have hseen : e.seen.start = e.baseAddr := Nat.mod_eq_of_lt hbase
  by_cases hwraps : e.Wraps
  · rw [(hkeeps.2 hwraps).1, hseen]
  · have hin := (hkeeps.1 hwraps).inside
    omega

theorem start_lt_of_keeps (hkeeps : Keeps es e s t) : s < wordSize := by
  by_cases hwraps : e.Wraps
  · rw [(hkeeps.2 hwraps).1]
    exact Nat.mod_lt _ (by decide)
  · have hin := (hkeeps.1 hwraps).inside
    have hlimit : e.seen.start + e.seen.length < wordSize := Nat.lt_of_not_le hwraps
    omega

/-- **A range is as it should be exactly when the gap that it is taken from has it.** -/
theorem safeRange_iff (hkeeps : Keeps es e s t) (hmem : e ∈ es) (hfree : e.isFree = true) :
    SafeRange es ⟨pageAlignUp s, bytes⟩ ↔ GapFits es bytes e s t := by
  have hlt := start_lt_of_keeps hkeeps
  constructor
  · rintro ⟨⟨g, hg, hgfree, hhigh, hlo, hhi⟩, hapart⟩
    have hrounds : s + 4096 ≤ wordSize := by
      by_contra hlast
      -- the last page is rounded to address zero
      have hzero : pageAlignUp s = 0 := by
        rw [pageAlignUp_eq]
        simp only [wordSize] at hlast hlt ⊢
        omega
      exact absurd (hzero ▸ hlo) (by simp only [Page.MmapEntry.extent]; omega)
    refine ⟨hrounds, ?_, ?_, ?_⟩
    · intro hpos haligned f hf hused hs
      have hround : pageAlignUp s = s := by
        rw [pageAlignUp_eq, Nat.mod_eq_of_lt (by omega)]
        omega
      exact hapart f hf hused s ⟨⟨hround.le, by simp only [hround]; omega⟩, hs⟩
    · intro f hf hused x hx hx' _ hin
      exact hapart f hf hused x ⟨⟨hx, hx'⟩, hin⟩
    · by_cases hge : g = e
      · subst hge
        exact .inl ⟨hhigh, lt_of_le_of_lt hlo (pageAlignUp_lt s), hhi⟩
      · exact .inr ⟨g, hg, hge, hgfree, hhigh, hlo, hhi⟩
  · intro h
    obtain ⟨hround, halign⟩ := pageAlignUp_round h.rounds
    refine ⟨?_, ?_⟩
    · rcases h.inside with ⟨hhigh, hbase, hroom⟩ | ⟨g, hg, -, hgfree, hhigh, hwithin⟩
      · exact ⟨e, hmem, hfree, hhigh, (start_le_of_keeps hkeeps hbase).trans hround, hroom⟩
      · exact ⟨g, hg, hgfree, hhigh, hwithin⟩
    · rintro f hf hused x ⟨⟨hlo, hhi⟩, hx⟩
      by_cases hbehind : t ≤ x ∨ ¬ Compared e f
      · exact h.rest f hf hused x hlo hhi hbehind hx
      · push Not at hbehind
        have hlo' : pageAlignUp s ≤ x := hlo
        have hhi' : x < pageAlignUp s + bytes := hhi
        rcases Nat.lt_or_ge s x with hs | hs
        · exact not_has_of_keeps hkeeps hf hused hbehind.2 hs hbehind.1 hx
        · -- the first byte of the gap
          have hxs : x = s := by omega
          subst hxs
          exact h.first (by omega) (halign (by omega)) f hf hused hx

theorem decides_safeRange_iff (h : Decides es bytes e s t) :
    SafeRange es ⟨pageAlignUp s, bytes⟩ ↔ GapFits es bytes e s t := by
  obtain ⟨⟨hfree, -, hkeeps, -⟩, front, back, hsplit, -⟩ := h
  refine safeRange_iff hkeeps ?_ hfree
  rw [hsplit]
  exact List.mem_append_right _ List.mem_cons_self

/-! ## §3. The reservation. -/

/-- The page on which the boot has put the records. -/
def bootPage (m : Memory) (boot : List Record) : Page := (appendAll (create m) boot).1

/-- **The memory that the mmu module takes is memory it may have exactly when the gap that
decides has it, rounded to a page**: on any map that was made at boot and for any number of
bytes, when the search finds an address and the memory is then granted. -/
theorem boot_reservation_safe_iff (m : Memory) (boot : List Record) (bytes type : BitVec 32)
    {fuel : Nat} (hfuel : pageSize ≤ fuel) :
    ∃ es a granted b', (bootPage m boot).mmapEntries fuel = some es ∧
      (bootPage m boot).findHighmemRangeOfAtLeast bytes.toNat fuel = some a ∧
      (bootPage m boot).useMemory (.ofNat 32 (pageAlignUp a)) bytes type fuel
        = some (granted, b') ∧
      (a ≠ 0xffffffff → granted = true →
        (SafeRange es ⟨pageAlignUp a, bytes.toNat⟩ ↔ Fits es bytes.toNat)) := by
  have h : Holds (bootPage m boot) _ := appendAll_holds (create_holds m) boot
  obtain ⟨a, hfind, hsome, hnone⟩ := findHighmemRangeOfAtLeast_eq h hfuel bytes.toNat
  obtain ⟨granted, b', huse⟩ : ∃ granted b', (bootPage m boot).useMemory
      (.ofNat 32 (pageAlignUp a)) bytes type fuel = some (granted, b') := by
    rcases useMemory_cases h hfuel ⟨.ofNat 32 (pageAlignUp a), bytes, type⟩ with
      hu | ⟨e, b', hu, -, -, -⟩
    · exact ⟨_, _, hu⟩
    · exact ⟨_, _, hu⟩
  refine ⟨_, a, granted, b', h.mmapEntries hfuel, hfind, huse, fun ha _ => ?_⟩
  constructor
  · intro hsafe e s t hdecides
    rw [hsome e s t hdecides] at hsafe
    exact (decides_safeRange_iff hdecides).mp hsafe
  · intro hfits
    obtain ⟨e, s, t, hdecides⟩ : ∃ e s t, Decides _ bytes.toNat e s t := by
      by_contra hno
      exact ha (hnone hno)
    rw [hsome e s t hdecides]
    exact (decides_safeRange_iff hdecides).mpr (hfits e s t hdecides)

/-- Four megabytes of free memory. -/
def freeMap : List Record := [.mmap 0x200000 0x400000 1]

theorem boot_reservation_safe_free :
    pageSize ≤ 4096 ∧ SafeRange [⟨0x200000, 0x400000, 1⟩] ⟨0x200000, 0x2000⟩ ∧
      Fits [⟨0x200000, 0x400000, 1⟩] 0x2000 := by
  obtain ⟨es, a, granted, b', hes, hfind, huse, hiff⟩ :=
    boot_reservation_safe_iff ⟨fun _ => 0, []⟩ freeMap 0x2000 122 (le_refl 4096)
  have hmap : (bootPage ⟨fun _ => 0, []⟩ freeMap).mmapEntries 4096 = some [⟨0x200000, 0x400000, 1⟩] := by
    decide +kernel
  have hfound : (bootPage ⟨fun _ => 0, []⟩ freeMap).findHighmemRangeOfAtLeast 0x2000 4096 = some 0x200000 := by
    decide +kernel
  have hgranted : ((bootPage ⟨fun _ => 0, []⟩ freeMap).useMemory 0x200000 0x2000 122 4096).map Prod.fst
      = some true := by decide +kernel
  obtain rfl := Option.some_inj.mp (hes.symm.trans hmap)
  obtain rfl := Option.some_inj.mp (hfind.symm.trans hfound)
  have hround : pageAlignUp 0x200000 = 0x200000 := by decide +kernel
  rw [hround] at huse hiff
  have hyes : granted = true := by
    have hsome := congrArg (Option.map Prod.fst) huse
    exact (Option.some_inj.mp (hgranted.symm.trans hsome)).symm
  have hsafe : SafeRange [⟨0x200000, 0x400000, 1⟩] ⟨0x200000, 0x2000⟩ :=
    ⟨⟨_, List.mem_singleton_self _, rfl, by decide, by decide, by decide⟩, by simp [Page.MmapEntry.isFree]⟩
  exact ⟨le_rfl, hsafe, (hiff (by decide) hyes).mp hsafe⟩

/-- The same memory, and an entry in use on top that ends with the first byte of a page. -/
def overlaidMap : List Record := [.mmap 0x200000 0x400000 1, .mmap 0x200000 0x1001 2]

/-- The range that is taken starts with the last byte of the entry in use. -/
theorem boot_reservation_overlaps :
    ∃ es b', (bootPage ⟨fun _ => 0, []⟩ overlaidMap).mmapEntries 4096 = some es ∧
      (bootPage ⟨fun _ => 0, []⟩ overlaidMap).findHighmemRangeOfAtLeast 0x2000 4096 = some 0x201000 ∧
      pageAlignUp 0x201000 = 0x201000 ∧
      (bootPage ⟨fun _ => 0, []⟩ overlaidMap).useMemory 0x201000 0x2000 122 4096 = some (true, b') ∧
      ¬ SafeRange es ⟨0x201000, 0x2000⟩ := by
  have hgranted : ((bootPage ⟨fun _ => 0, []⟩ overlaidMap).useMemory 0x201000 0x2000 122 4096).map Prod.fst
      = some true := by decide +kernel
  obtain ⟨⟨granted, b'⟩, huse, hyes⟩ := Option.map_eq_some_iff.mp hgranted
  have hmap : (bootPage ⟨fun _ => 0, []⟩ overlaidMap).mmapEntries 4096
      = some [⟨0x200000, 0x400000, 1⟩, ⟨0x200000, 0x1001, 2⟩] := by decide +kernel
  refine ⟨_, b', hmap, by decide +kernel, by decide +kernel, ?_, ?_⟩
  · rw [huse, show granted = true from hyes]
  · rintro ⟨-, hapart⟩
    exact hapart ⟨0x200000, 0x1001, 2⟩ (by simp) rfl 0x201000 (by decide)

end Metta.RootDomain
