/-
  Metta.MmuMod.Ranges — ranges of pages: `add_mapped_range` and `update_range` of
  mmu_mod.cpp.

  Both turn a set of rights into flags and then go through the range, page by
  page or level 2 table by level 2 table.  `page_t pte` starts with whatever is
  on the stack; `raw` stands for it.  `nucleus::debug_stop` is a breakpoint, after
  which the calls go on.
-/
import Metta.FramesMod.Def
import Metta.MmuMod.Rights

namespace Metta.MmuMod

open Metta.FramesMod (Ramtab RamtabEntry RamState)

/-! ## §1. Flags. -/

/-- `memory_v1::attrs`. -/
inductive MemAttr where
  | regular
  | nailed
  | nonMemory
  | noCache
  | dma
  | readOnly
  deriving DecidableEq, Repr

def MemAttr.place : MemAttr → Nat
  | regular => 0
  | nailed => 1
  | nonMemory => 2
  | noCache => 3
  | dma => 4
  | readOnly => 5

def hasAttr (attr : BitVec 32) (a : MemAttr) : Bool := attr.getLsbD a.place

/-- `control_bits`. -/
def controlBits (useGlobalPages : Bool) (rights attr : BitVec 32) (valid : Bool) : Flags :=
  (if valid then 0#32 else Page.swapped)
    ||| (if hasRight rights .read then 0#32 else Page.kernelMode)
    ||| (if hasRight rights .execute then Page.executable else 0#32)
    ||| (if hasRight rights .write then Page.writable else 0#32)
    ||| (if useGlobalPages && hasRight rights .global then Page.global else 0#32)
    ||| (if hasAttr attr .noCache then Page.cacheDisable
      else if hasAttr attr .nonMemory then Page.writeThrough else 0#32)

/-! ## §2. Pages of a width. -/

/-- `page_t::width_4kib`. -/
def width4kib : Nat := 12

/-- `page_t::width_4mib`. -/
def width4mib : Nat := 22

def validWidth (width : Nat) : Bool := width == width4kib || width == width4mib

/-- `add_page`; pages of 4 MiB are not there yet. -/
def addPage (s : State) (pageWidth : Nat) (va : Address) (pte : Page) (sid : Sid) : Bool × State :=
  if pageWidth = width4kib then add4kPage s va pte sid else (false, s)

/-- `update_pages`. -/
def updatePages (s : State) (pageWidth : Nat) (va : Address) (nPages : Nat) (pte : Page) (sid : Sid) :
    Nat × State :=
  if pageWidth = width4kib then update4kPages s va nPages pte sid else (0, s)

/-- `memory_v1::virtmem_desc`, less its attribute. -/
structure VirtmemDesc where
  startAddr : Address
  nPages : BitVec 32
  pageWidth : Nat

/-- `memory_v1::physmem_desc`. -/
structure PhysmemDesc where
  startAddr : Address
  nFrames : BitVec 32
  frameWidth : Nat
  attr : BitVec 32

/-! ## §3. `update_range`. -/

/-- The loop of `mmu_v1_update_range`, with `n` pages left from `virt` on; `none` when
the fuel does not suffice. -/
def updateLoop (pageWidth : Nat) (pte : Page) (sid : Sid) :
    (fuel : Nat) → (virt : Address) → (n : Nat) → State → Option State
  | 0, _, n, s => if n = 0 then some s else none
  | fuel + 1, virt, n, s =>
      if n = 0 then some s
      else
        let r := updatePages s pageWidth virt n pte sid
        if r.1 = 0 then some r.2
        else updateLoop pageWidth pte sid fuel (virt + BitVec.ofNat 32 (r.1 * 2 ^ pageWidth))
          (n - r.1) r.2

/-- `mmu_v1_update_range`, for a stretch with the sid `sid`. -/
def updateRange (fuel : Nat) (useGlobalPages : Bool) (range : VirtmemDesc) (rights : BitVec 32)
    (sid : Sid) (raw : Page) (s : State) : Option State :=
  let pte := raw.setFlags (controlBits useGlobalPages rights 0#32 true)
  if !validWidth range.pageWidth then some s
  else updateLoop range.pageWidth pte sid fuel range.startAddr range.nPages.toNat s

/-! ## §4. `add_mapped_range`. -/

/-- The loop of `mmu_v1_add_mapped_range`, with `n` pages left. -/
def addMappedLoop (pageWidth : Nat) (pte : Page) (sid : Sid) :
    (n : Nat) → (virt phys : Address) → State → Ramtab → State × Ramtab
  | 0, _, _, s, rt => (s, rt)
  | n + 1, virt, phys, s, rt =>
      let frame := phys.toNat / 4096
      match addPage s pageWidth virt (pte.setFrame phys) sid with
      | (false, s) => (s, rt)
      | (true, s) =>
          addMappedLoop pageWidth pte sid n (virt + BitVec.ofNat 32 (2 ^ pageWidth))
            (phys + BitVec.ofNat 32 (2 ^ pageWidth)) s
            -- owner and width as `ramtab_v1_get` gave them
            (match rt.get frame with
              | some e => rt.put frame e.owner e.frameWidth .mapped
              | none => rt)

/-- `mmu_v1_add_mapped_range`, for a stretch with the sid `sid`. -/
def addMappedRange (useGlobalPages : Bool) (range : VirtmemDesc) (pmem : PhysmemDesc)
    (rights : BitVec 32) (sid : Sid) (raw : Page) (s : State) (rt : Ramtab) : State × Ramtab :=
  if !validWidth range.pageWidth then (s, rt)
  else if !validWidth pmem.frameWidth then (s, rt)
  else
    let pageWidth := max range.pageWidth pmem.frameWidth
    let nPages :=
      if range.pageWidth < pmem.frameWidth then (range.nPages <<< range.pageWidth) >>> pageWidth
      else range.nPages
    let nFrames :=
      if pmem.frameWidth < range.pageWidth then (pmem.nFrames <<< pmem.frameWidth) >>> pageWidth
      else pmem.nFrames
    if nFrames ≠ nPages then (s, rt)
    else
      addMappedLoop pageWidth (raw.setFlags (controlBits useGlobalPages rights pmem.attr true)) sid
        nPages.toNat range.startAddr pmem.startAddr s rt

end Metta.MmuMod
