/-
  Metta.MmuMod.Def — the page tables of
  modules/tcb/platform/pc99/mmu_mod/mmu_mod.cpp.

  A level 1 table of 1024 entries points to level 2 tables taken from a pool
  of 8 KiB chunks: 4 KiB of page table entries, then 4 KiB of shadow entries
  (the sid and the rights as they were asked for).  The chunks live in byte
  memory and are reached through 32-bit addresses, which wrap; the state
  record is a Lean record.  It cannot overlap the pool: `create` takes both
  from one range whose length is a 32-bit number.

  Logging is left out, and of `create` what does not concern the page
  tables (the ramtab, the protection domains, the closures).  Where `create`
  asks the boot information page for a range of memory, the range is an
  argument.
-/
import Metta.Machine.Memory

namespace Metta.MmuMod

open Metta.Machine

/-! ## §1. Pages (page_directory.h, page_directory.cpp, arch/x86/ia32.h). -/

/-- `address_t`, `physical_address_t`. -/
abbrev Address := BitVec 32

/-- `flags_t`. -/
abbrev Flags := BitVec 32

/-- `sid_t`. -/
abbrev Sid := BitVec 16

def pageMask : BitVec 32 := 0xFFFFF000#32

def ia32PagePresent : BitVec 32 := 1#32 <<< 0
def ia32PageWritable : BitVec 32 := 1#32 <<< 1
def ia32PageUser : BitVec 32 := 1#32 <<< 2
def ia32PageWriteThrough : BitVec 32 := 1#32 <<< 3
def ia32PageCacheDisable : BitVec 32 := 1#32 <<< 4
def ia32Page4mb : BitVec 32 := 1#32 <<< 7
def ia32PageGlobal : BitVec 32 := 1#32 <<< 8
def ia32PageSwapped : BitVec 32 := 1#32 <<< 9
def ia32PageCow : BitVec 32 := 1#32 <<< 10

/-- `pde_entry`: the level 1 index of an address. -/
def pdeEntry (virt : Address) : Fin 1024 :=
  ⟨((virt >>> 22) &&& 0x3ff#32).toNat, by
    rw [BitVec.toNat_and]
    exact lt_of_le_of_lt Nat.and_le_right (by decide)⟩

/-- `pte_entry`: the level 2 index of an address. -/
def pteEntry (virt : Address) : Fin 1024 :=
  ⟨((virt >>> 12) &&& 0x3ff#32).toNat, by
    rw [BitVec.toNat_and]
    exact lt_of_le_of_lt Nat.and_le_right (by decide)⟩

/-- `page_t`. -/
structure Page where
  raw : BitVec 32
  deriving DecidableEq, Repr

namespace Page

def kernelMode : Flags := 0x01#32
def writable : Flags := 0x02#32
def executable : Flags := 0x04#32
def writeThrough : Flags := 0x08#32
def cacheDisable : Flags := 0x10#32
def copyOnWrite : Flags := 0x20#32
def swapped : Flags := 0x40#32
def global : Flags := 0x80#32

def isPresent (p : Page) : Bool := p.raw &&& ia32PagePresent != 0#32
def is4mb (p : Page) : Bool := p.raw &&& ia32Page4mb != 0#32

def frame (p : Page) : Address := p.raw &&& pageMask

/-- `page_t::flags`: the CPU-agnostic flags of a page. -/
def flags (p : Page) : Flags :=
  executable
    ||| (if p.raw &&& ia32PageWritable ≠ 0#32 then writable else 0#32)
    ||| (if p.raw &&& ia32PageUser = 0#32 then kernelMode else 0#32)
    ||| (if p.raw &&& ia32PageWriteThrough ≠ 0#32 then writeThrough else 0#32)
    ||| (if p.raw &&& ia32PageCacheDisable ≠ 0#32 then cacheDisable else 0#32)
    ||| (if p.raw &&& ia32PageSwapped ≠ 0#32 then swapped else 0#32)
    ||| (if p.raw &&& ia32PageCow ≠ 0#32 then copyOnWrite else 0#32)
    ||| (if p.raw &&& ia32PageGlobal ≠ 0#32 then global else 0#32)

def setFrame (p : Page) (f : Address) : Page :=
  ⟨(p.raw &&& ~~~pageMask) ||| (f &&& pageMask)⟩

/-- The `value` that `set_flags` puts into the low bits. -/
def flagBits (flags : Flags) : BitVec 32 :=
  (if flags &&& kernelMode ≠ 0#32 then ia32PageGlobal else ia32PageUser)
    ||| (if flags &&& writable ≠ 0#32 then ia32PageWritable else 0#32)
    ||| (if flags &&& writeThrough ≠ 0#32 then ia32PageWriteThrough else 0#32)
    ||| (if flags &&& cacheDisable ≠ 0#32 then ia32PageCacheDisable else 0#32)
    ||| (if flags &&& swapped ≠ 0#32 then ia32PageSwapped else ia32PagePresent)
    ||| (if flags &&& copyOnWrite ≠ 0#32 then ia32PageCow else 0#32)
    ||| (if flags &&& global ≠ 0#32 then ia32PageGlobal else 0#32)

/-- `page_t::set_flags`. -/
def setFlags (p : Page) (flags : Flags) : Page :=
  ⟨(p.raw &&& pageMask) ||| flagBits flags⟩

end Page

/-! ## §2. The state record. -/

/-- `N_L1_TABLES`. -/
abbrev nL1Tables : Nat := 1024

/-- `N_L2_ENTRIES`. -/
abbrev nL2Entries : Nat := 1024

/-- `L2SIZE`: 4K for the page table and 4K for its shadow. -/
def l2Size : Nat := 8 * 1024

/-- `SID_NULL`. -/
def sidNull : Sid := 0xFFFF#16

/-- `shadow_t`. -/
structure Shadow where
  sid : Sid
  flags : BitVec 16
  deriving DecidableEq, Repr

/-- `l2_info`: `L2FREE` or `L2USED`. -/
inductive L2Info where
  | free
  | used
  deriving DecidableEq, Repr

/-- `mmu_v1::state_t`, and the memory that holds the level 2 chunks. -/
structure State where
  /-- Level 1 page directory. -/
  l1Mapping : Fin nL1Tables → Page
  /-- Level 1 shadows (4Mb pages). -/
  l1Shadows : Fin nL1Tables → Shadow
  /-- Virtual addresses of L2s. -/
  l1Virt : Fin nL1Tables → Page
  l2Virt : Address
  l2Phys : Address
  /-- Index of the last available chunk. -/
  l2Max : Nat
  /-- Index of first potential free chunk. -/
  l2Next : Nat
  /-- Free/used L2 info; `l2Max` entries. -/
  info : Nat → L2Info
  mem : Memory

/-! ## §3. Level 2 tables in memory. -/

/-- `SHADOW(l2va)`. -/
def shadow (l2va : Address) : Address := l2va + 4096#32

/-- The address of `reinterpret_cast<page_t*>(l2va)[idx]`. -/
def pteAddress (l2va : Address) (idx : Nat) : Nat :=
  (l2va + 4#32 * BitVec.ofNat 32 idx).toNat

/-- The address of `SHADOW(l2va)[idx]`; `flags` follows `sid` at offset 2. -/
def shadowAddress (l2va : Address) (idx : Nat) : Nat :=
  (shadow l2va + 4#32 * BitVec.ofNat 32 idx).toNat

def readPte (m : Memory) (l2va : Address) (idx : Nat) : Page :=
  ⟨BitVec.ofNat 32 (m.load32 (pteAddress l2va idx))⟩

def writePte (m : Memory) (l2va : Address) (idx : Nat) (p : Page) : Memory :=
  m.store32 (pteAddress l2va idx) p.raw.toNat

def readShadow (m : Memory) (l2va : Address) (idx : Nat) : Shadow where
  sid := BitVec.ofNat 16 (m.load16 (shadowAddress l2va idx))
  flags := BitVec.ofNat 16 (m.load16 (shadowAddress l2va idx + 2))

/-- `SHADOW(l2va)[idx].sid = sid`, then `SHADOW(l2va)[idx].flags = flags`; the
flags lose their upper half. -/
def writeShadow (m : Memory) (l2va : Address) (idx : Nat) (sid : Sid) (flags : Flags) : Memory :=
  (m.store16 (shadowAddress l2va idx) sid.toNat).store16 (shadowAddress l2va idx + 2)
    (flags.setWidth 16).toNat

/-! ## §4. The page tables. -/

/-- The search of `alloc_l2table`: the first free chunk at `i` or after, or the
end of the array, which is `n` chunks on. -/
def nextFree (info : Nat → L2Info) : (n i : Nat) → Nat
  | 0, i => i
  | n + 1, i => if info i = .free then i else nextFree info n (i + 1)

/-- `alloc_l2table`: the virtual and physical address of a cleared chunk. -/
def allocL2table (s : State) : Option (Address × Address × State) :=
  let i := nextFree s.info (s.l2Max - s.l2Next) s.l2Next
  if i = s.l2Max then none
  else
    let l2va := s.l2Virt + BitVec.ofNat 32 (l2Size * i)
    let l2pa := s.l2Phys + BitVec.ofNat 32 (l2Size * i)
    some (l2va, l2pa,
      { s with
        info := Function.update s.info i .used
        l2Next := i + 1
        mem := s.mem.clear l2va.toNat l2Size })

/-- The part of `add4k_page` that gives a level 1 entry its level 2 table. -/
def ensureL2table (s : State) (l1idx : Fin nL1Tables) : Option State :=
  if (s.l1Mapping l1idx).isPresent then some s
  else
    match allocL2table s with
    | none => none
    | some (l2va, l2pa, s) =>
        some { s with
          l1Mapping := Function.update s.l1Mapping l1idx
            (((s.l1Mapping l1idx).setFrame l2pa).setFlags (Page.writable ||| Page.writeThrough))
          l1Virt := Function.update s.l1Virt l1idx ((s.l1Virt l1idx).setFrame l2va) }

/-- The virtual address of the level 2 table of a present level 1 entry, as
`add4k_page` and `update4k_pages` compute it. -/
def l2Address (s : State) (l1idx : Fin nL1Tables) : Address :=
  s.l2Virt + ((s.l1Mapping l1idx).frame - s.l2Phys)

/-- `add4k_page`. -/
def add4kPage (s : State) (va : Address) (pte : Page) (sid : Sid) : Bool × State :=
  let l1idx := pdeEntry va
  match ensureL2table s l1idx with
  | none => (false, s)
  | some s =>
      if (s.l1Mapping l1idx).is4mb then (false, s)
      else
        let l2va := l2Address s l1idx
        let l2idx := pteEntry va
        (true, { s with
          mem := writeShadow (writePte s.mem l2va l2idx pte) l2va l2idx sid pte.flags })

/-- The loop of `update4k_pages` from page `i` on, of which `n` are left. -/
def updateFrom (l2va : Address) (l2idx : Nat) (flags : Flags) (sid : Sid) :
    (n i : Nat) → Memory → Nat × Memory
  | 0, i, m => (i, m)
  | n + 1, i, m =>
      if i + l2idx < nL2Entries then
        updateFrom l2va l2idx flags sid n (i + 1)
          (writeShadow
            (writePte m l2va (l2idx + i) ((readPte m l2va (l2idx + i)).setFlags flags))
            l2va (l2idx + i) sid flags)
      else (i, m)

/-- `update4k_pages`: the number of pages updated, from the first on. -/
def update4kPages (s : State) (va : Address) (nPages : Nat) (pte : Page) (sid : Sid) :
    Nat × State :=
  let l1idx := pdeEntry va
  if !(s.l1Mapping l1idx).isPresent then (0, s)
  else if (s.l1Mapping l1idx).is4mb then (0, s)
  else
    let done := updateFrom (l2Address s l1idx) (pteEntry va) pte.flags sid nPages 0 s.mem
    (done.1, { s with mem := done.2 })

/-! ## §5. The initial state. -/

/-- `memory_v1::mapping`, less the page width and the mode. -/
structure Mapping where
  virt : Address
  nframes : Nat
  phys : Address

/-- `bitmap_bit`. -/
def bitmapBit (va : Address) : Nat := ((va >>> 22) &&& 0x1f#32).toNat

/-- `bitmap_index`. -/
def bitmapIndex (va : Address) : Nat := (va >>> 27).toNat

/-- The number of set bits; a word is zero after 32 shifts. -/
def countBits : (n : Nat) → BitVec 32 → Nat
  | 0, _ => 0
  | n + 1, w =>
      if w = 0#32 then 0
      else (if w &&& 1#32 ≠ 0#32 then 1 else 0) + countBits n (w >>> 1)

/-- The bitmap of `memory_required`: one bit for each 4 MiB that a mapping of
the boot information page touches. -/
def requiredBitmap (vmap : List Mapping) : Nat → BitVec 32 :=
  vmap.foldl (fun bitmap e =>
    (List.range e.nframes).foldl (fun bitmap j =>
      let va := e.virt + (BitVec.ofNat 32 j <<< 12)
      Function.update bitmap (bitmapIndex va)
        (bitmap (bitmapIndex va) ||| (1#32 <<< bitmapBit va))) bitmap)
    fun _ => 0#32

/-- `N_EXTRA_L2S`. -/
def nExtraL2s : Nat := 32

/-- The `n_l2_tables` that `memory_required` computes. -/
def nL2Tables (vmap : List Mapping) : Nat :=
  ((List.range 32).map fun i => countBits 32 (requiredBitmap vmap i)).sum + nExtraL2s

/-- `page_align_up`. -/
def pageAlignUp (addr : Address) : Address := (addr + 4096#32 - 1#32) &&& ~~~(4096#32 - 1#32)

/-- `mmu_module_v1_create` up to `enter_mappings`: the state at `firstRange`, the
chunks `l2TablesOffset` after it in memory of any contents. -/
def create (vmap : List Mapping) (firstRange l2TablesOffset : Address) (mem : Memory) : State where
  l1Mapping _ := ⟨0#32⟩
  l1Shadows _ := ⟨sidNull, 0#16⟩
  l1Virt _ := ⟨0#32⟩
  l2Virt := pageAlignUp (firstRange + l2TablesOffset)
  l2Phys := pageAlignUp (firstRange + l2TablesOffset)
  l2Max := nL2Tables vmap
  l2Next := 0
  info _ := .free
  mem := mem

end Metta.MmuMod
