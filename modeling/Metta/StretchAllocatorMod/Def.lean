/-
  Metta.StretchAllocatorMod.Def — the virtual address allocator of
  modules/tcb/stretch_allocator_mod/stretch_allocator_mod.cpp.

  Free virtual memory is a cyclic list of regions; `regions` is its head and
  no region.  `vm_alloc` takes pages out of one region, from its start, its
  end or its middle.

  `new(heap)` is an argument of the call: the address it answers, or null.
  The walks have fuel, and a null link or a stop in the debugger is a fault.
  What `kconsole` prints is left out, but for the reads that it takes.
-/
import Metta.FramesMod.Def
import Metta.Machine.DLList

namespace Metta.StretchAllocatorMod

open Metta.Machine
open Metta.FramesMod (shl32 shr32 alignToFrameWidth unaligned)

/-! ## §1. Regions. -/

/-- `PAGE_WIDTH`. -/
def pageWidth : Nat := 12

/-- `PAGE_SIZE`. -/
def pageSize : Nat := 4096

/-- `memory_v1::attrs`. -/
inductive Attrs where
  | regular
  | nailed
  | nonMemory
  | noCache
  | dma
  | readOnly
  deriving DecidableEq, Repr

/-- `memory_v1::virtmem_desc`. -/
structure VirtmemDesc where
  startAddr : Nat
  nPages : Nat
  pageWidth : Nat
  attr : Attrs
  deriving DecidableEq, Repr

/-- Why a call does not return. -/
inductive Fault where
  | nullLink
  | nullBase
  /-- `nucleus::debug_stop`. -/
  | stopped
  | noHeap
  | endless
  deriving DecidableEq, Repr

/-- `server_state_t`, as far as `vm_alloc` goes: the head of the region list, the links
and the regions' descriptors. -/
structure ServerState where
  regions : Nat
  links : Links Nat Nat
  desc : Nat → VirtmemDesc

/-- Set the descriptor of a region. -/
def ServerState.setDesc (s : ServerState) (r : Nat) (d : VirtmemDesc) : ServerState :=
  { s with desc := Function.update s.desc r d }

/-- What `vm_alloc` returns in its three result arguments. -/
structure Range where
  virtAddr : Nat
  nPages : Nat
  pageWidth : Nat
  deriving DecidableEq, Repr

/-! ## §2. `vm_alloc`. -/

/-- The search from the link `region` on: the first region that `fits`, or the head. -/
def findRegion (s : ServerState) (fits : VirtmemDesc → Bool) : Nat → Option Nat → Except Fault Nat
  | 0, _ => .error .endless
  | _ + 1, none => .error .nullLink
  | n + 1, some region =>
      if region = s.regions then .ok region
      else
        match (s.links region).base with
        | none => .error .nullBase
        | some r =>
            if fits (s.desc r) then .ok region else findRegion s fits n (s.links.next region)

/-- Take `size` bytes, `npages` pages, from the start of a region; a region without
more than that is taken out of the list. -/
def takeFromStart (s : ServerState) (region r size npages : Nat) : ServerState :=
  let d := s.desc r
  if d.nPages > npages then
    s.setDesc r { d with
      startAddr := add32 d.startAddr (alignToFrameWidth size d.pageWidth)
      nPages := sub32 d.nPages npages }
  else { s with links := s.links.remove region }

/-- Number of the page at or after an address. -/
def pageUp (addr : Nat) : Nat := shr32 (sub32 (add32 addr pageSize) 1) pageWidth

/-- Does the region hold the pages from `startPage` on? -/
def holds (startPage npages : Nat) (d : VirtmemDesc) : Bool :=
  startPage ≥ pageUp d.startAddr &&
    add32 startPage npages ≤ add32 (pageUp d.startAddr) d.nPages

/-- Take pages out of a region away from its start: from its end, or from the middle,
which makes a new region of what is after them. -/
def takeFromRest (s : ServerState) (region r size npages offset virtAddr : Nat)
    (new : Option Nat) : Except Fault ServerState :=
  let d := s.desc r
  if add32 offset npages = d.nPages then
    .ok (s.setDesc r { d with nPages := sub32 d.nPages npages })
  else
    match new with
    | none => .error .noHeap
    | some a =>
        let s := { s with links := s.links.init a (some a) }
        let s := s.setDesc a
          { startAddr := add32 virtAddr (alignToFrameWidth size d.pageWidth)
            nPages := sub32 d.nPages (add32 npages offset)
            pageWidth := d.pageWidth
            attr := d.attr }
        let s := s.setDesc r { s.desc r with nPages := offset }
        .ok { s with links := s.links.insertAfter region a }

/-- `vm_alloc`. -/
def vmAlloc (fuel : Nat) (s : ServerState) (size start : Nat) (new : Option Nat) :
    Except Fault (Option Range × ServerState) :=
  let npages := pageUp size
  if unaligned start then
    (findRegion s (fun d => npages ≤ d.nPages) fuel (s.links.next s.regions)).bind fun region =>
      -- what was found is printed, also when it is the head
      match (s.links region).base with
      | none => .error .nullBase
      | some r =>
          if region = s.regions then .ok (none, s)
          else
            .ok (some ⟨(s.desc r).startAddr, npages, (s.desc r).pageWidth⟩,
              takeFromStart s region r size npages)
  else
    let startPage := pageUp start
    (findRegion s (holds startPage npages) fuel (s.links.next s.regions)).bind fun region =>
      if region = s.regions then .ok (none, s)
      else
        match (s.links region).base with
        | none => .error .nullBase
        | some r =>
            if start &&& sub32 (shl32 1 (s.desc r).pageWidth) 1 ≠ 0 then .error .stopped
            else
              let offset := sub32 startPage (pageUp (s.desc r).startAddr)
              let range : Range :=
                ⟨shl32 startPage pageWidth, npages, (s.desc r).pageWidth⟩
              if offset = 0 then .ok (some range, takeFromStart s region r size npages)
              else
                (takeFromRest s region r size npages offset range.virtAddr new).map fun s' =>
                  (some range, s')

/-- The region list that `stretch_allocator_module_v1_create` makes: one region with the
whole address space.  `head` and `first` are what `new` answered. -/
def create (links : Links Nat Nat) (head first : Nat) : ServerState where
  regions := head
  links := ((links.init head (some head)).init first (some first)).insertBefore head first
  desc _ := ⟨0, 0x100000, pageWidth, .regular⟩

/-- `SYSALLOC_VA_SIZE`. -/
def sysallocVaSize : Nat := 0x10000000

/-- `ANY_ADDRESS`. -/
def anyAddress : Nat := 0xffffffff

/-- The region list that `system_stretch_allocator_v1_create_nailed` makes of a range: its
head has no base. -/
def createNailed (links : Links Nat Nat) (head first : Nat) (range : Range) : ServerState where
  regions := head
  links := ((links.init head none).init first (some first)).insertAfter head first
  desc _ := ⟨range.virtAddr, range.nPages, range.pageWidth, .regular⟩

end Metta.StretchAllocatorMod
