/-
  Metta.FramesMod.Def — the physical frame allocator of
  modules/tcb/frames_mod/frames_mod.cpp.

  Physical memory is divided into regions, one per entry of the boot memory
  map; each region keeps for every logical frame the number of free frames
  that start there.  Frames of RAM regions also have an entry in the ramtab
  (owned by mmu_mod), and every client has a quota of physical frames.

  Three things of the source need a word:

    • `frames[i]` with `i` outside the array is a fault.  The source has no
      check: the word it would touch belongs to the next region's record.
    • A loop that does not end (`free` of a range that starts in the first
      frame of its region) is a fault too.
    • `new(heap)` and `heap->allocate` may fail; whether they do is an
      argument of the call.

  Logging, the closures and the domain record that `create_client` fills in
  are left out.  `grants` is a ghost: the calls of `mark_frames_used`.
-/
import Metta.Machine.Word

namespace Metta.FramesMod

open Metta.Machine

/-! ## §1. Rounding (kernel/generic/memory.h). -/

/-- `FRAME_WIDTH`. -/
def frameWidth : Nat := 12

/-- `NO_ADDRESS`, also `ANY_ADDRESS`. -/
def noAddress : Nat := 0xffffffff

/-- `a << k`; the processor takes the count modulo 32. -/
def shl32 (a k : Nat) : Nat := a * 2 ^ (k % 32) % wordSize

/-- `a >> k`. -/
def shr32 (a k : Nat) : Nat := a / 2 ^ (k % 32)

/-- `phys_frame_number`. -/
def physFrameNumber (addr : Nat) : Nat := shr32 addr frameWidth

/-- `size_in_whole_frames` at 64 bits. -/
def sizeInWholeFrames (size width : Nat) : Nat :=
  (size + 2 ^ width - 1) % 2 ^ 64 / 2 ^ width

/-- `align_to_frame_width`: `(size + (1 << w) - 1) & ~((1UL << w) - 1)`. -/
def alignToFrameWidth (size width : Nat) : Nat :=
  sub32 (add32 size (shl32 1 width)) 1 &&& (wordSize - shl32 1 width)

/-- `bytes_to_log_frames`. -/
def bytesToLogFrames (bytes width : Nat) : Nat :=
  shr32 (alignToFrameWidth bytes width) width

/-- `is_aligned_to_frame_width`. -/
def isAlignedToFrameWidth (size width : Nat) : Bool :=
  size &&& (shl32 1 width - 1) == 0

/-- `unaligned`: an odd address asks for any address. -/
def unaligned (addr : Nat) : Bool := addr % 2 == 1

/-! ## §2. The boot memory map and the ramtab. -/

/-- `multiboot_t::mmap_entry_t::entry_type_e`. -/
inductive EntryType where
  | free | reserved | acpiReclaimable | acpiNvs | badMemory | disabled
  | framebuffer | loaderReclaimable | loadedModule | infoPage | nonFree
  | bootinfo | systemData
  /-- A type number the enumeration does not name. -/
  | other (type : Nat)
  deriving Repr, DecidableEq

/-- A memory map entry; address and size have 64 bits. -/
structure MmapEntry where
  address : Nat
  size : Nat
  type : EntryType
  deriving Repr, DecidableEq

/-- The entries that `create` takes for RAM. -/
def EntryType.isRam : EntryType → Bool
  | .free | .acpiReclaimable => true
  | _ => false

/-- `OWNER_NONE`. -/
def ownerNone : Nat := 0

/-- `OWNER_SYSTEM`. -/
def ownerSystem : Nat := 1

/-- What `ramtab_v1_get` returns for a frame outside the table. -/
def ownerOutside : Nat := 0xdeadd00d

/-- `ramtab_v1::state`. -/
inductive RamState where
  | unused | mapped | nailed
  deriving Repr, DecidableEq

/-- `ramtab_entry_t`. -/
structure RamtabEntry where
  owner : Nat
  frameWidth : Nat
  state : RamState
  deriving Repr, DecidableEq

/-- The ramtab that `create` is given. -/
structure Ramtab where
  size : Nat
  entry : Nat → RamtabEntry

/-- `ramtab_v1_put`; frames outside the table are ignored. -/
def Ramtab.put (t : Ramtab) (frame owner width : Nat) (state : RamState) : Ramtab :=
  if frame < t.size then
    { t with entry := Function.update t.entry frame ⟨owner, width % 2 ^ 16, state⟩ }
  else t

/-- `ramtab_v1_get`; outside the table the outputs are not set. -/
def Ramtab.get (t : Ramtab) (frame : Nat) : Option RamtabEntry :=
  if frame < t.size then some (t.entry frame) else none

/-! ## §3. Regions, clients and the state. -/

/-- Why a call does not return. -/
inductive Fault where
  /-- `PANIC`. -/
  | panic (message : String)
  /-- `frames[i]` with `i` outside the array. -/
  | index (i : Nat)
  /-- A loop that never ends. -/
  | endless
  /-- A variable or record is used that nothing has set. -/
  | uninitialised
  deriving Repr, DecidableEq

/-- `memory_v1::attrs`, as far as `create` sets them. -/
inductive Attrs where
  | regular | nonMemory
  deriving Repr, DecidableEq

/-- `frames_module_v1::state_t`; `next` is the order of the list. -/
structure Region where
  start : Nat
  nLogicalFrames : Nat
  frameWidth : Nat
  attrs : Attrs
  /-- Whether `ramtab` is set. -/
  ramtab : Bool
  /-- `frames[i].free`. -/
  frames : Nat → Nat

/-- An element of `region_list_t`. -/
structure RangeElement where
  start : Nat
  nPhysFrames : Nat
  frameWidth : Nat
  deriving Repr, DecidableEq

/-- `region_list_t`: the `start` member of the list head, which nothing
sets, and the elements. -/
structure RegionList where
  headStart : Nat
  elements : List RangeElement
  deriving Repr, DecidableEq

/-- `frame_allocator_v1::state_t`. -/
structure Client where
  owner : Nat
  nAllocatedPhysFrames : Nat
  guaranteedFrames : Nat
  extraFrames : Nat
  /-- Whether `heap` is set. -/
  heap : Bool
  regionList : Option RegionList
  deriving Repr, DecidableEq

/-- One call of `mark_frames_used`: `nFrames` logical frames of a region, from
`first` on, were given to `owner`. -/
structure Grant where
  region : Nat
  first : Nat
  nFrames : Nat
  owner : Nat
  deriving Repr, DecidableEq

/-- The allocator; the system client is the first client. -/
structure State where
  regions : List Region
  ramtab : Ramtab
  clients : List Client
  grants : List Grant

/-- What `alloc_any` and `alloc_range` answer: a region, the first logical
frame and the number of logical frames. -/
structure Found where
  region : Nat
  first : Nat
  nFrames : Nat
  deriving Repr, DecidableEq

/-! ## §4. Finding frames. -/

/-- Reading `frames[i].free`. -/
def Region.free (r : Region) (i : Nat) : Except Fault Nat :=
  if i < r.nLogicalFrames then .ok (r.frames i) else .error (.index i)

/-- The test of `get_region`; the end is computed modulo `2 ^ 32`. -/
def Region.contains (r : Region) (addr : Nat) : Bool :=
  r.start ≤ addr && addr < add32 r.start (shl32 r.nLogicalFrames r.frameWidth)

/-- `get_region`, from region number `i` on. -/
def getRegion (addr : Nat) : List Region → Nat → Option (Nat × Region)
  | [], _ => none
  | r :: rs, i => if r.contains addr then some (i, r) else getRegion addr rs (i + 1)

/-- `frame_address`. -/
def frameAddress (r : Region) (frameIndex : Nat) : Nat :=
  add32 r.start (shl32 frameIndex r.frameWidth)

/-- The inner loop of `alloc_any`: the first frame from `first` on with enough
free frames and the right alignment, among the next `k`. -/
def firstFit (r : Region) (nLogFrames align : Nat) : Nat → Nat → Option Nat
  | 0, _ => none
  | k + 1, first =>
    if nLogFrames ≤ r.frames first && isAlignedToFrameWidth (frameAddress r first) align then
      some first
    else firstFit r nLogFrames align k (first + 1)

/-- `alloc_any`, from region number `i` on. -/
def allocAny (nPhysicalFrames align : Nat) :
    List Region → Nat → Except Fault (Option Found)
  | [], _ => .ok none
  | r :: rs, i =>
    if r.attrs = .regular then
      let nLogFrames := shr32 nPhysicalFrames (sub32 r.frameWidth frameWidth)
      if nLogFrames ≠ nPhysicalFrames then
        .error (.panic "Region with non-standard frame width! Unsupported.")
      else
        match firstFit r nLogFrames align r.nLogicalFrames 0 with
        | some first => .ok (some ⟨i, first, nLogFrames⟩)
        | none => allocAny nPhysicalFrames align rs (i + 1)
    else allocAny nPhysicalFrames align rs (i + 1)

/-- `alloc_range`: as many frames at `start` as are asked for, or as many as
are free there. -/
def allocRange (nPhysicalFrames start : Nat) (regions : List Region) : Except Fault Found :=
  match getRegion start regions 0 with
  | none => .error (.panic "frames_mod")
  | some (i, r) =>
    let fshift := sub32 r.frameWidth frameWidth
    let nLogFrames := shr32 (alignToFrameWidth nPhysicalFrames fshift) fshift
    let first := bytesToLogFrames (sub32 start r.start) r.frameWidth
    (r.free first).map fun free => ⟨i, first, if free < nLogFrames then free else nLogFrames⟩

/-! ## §5. Taking frames. -/

/-- The loop of `alloc_update_free_predecessors`, going down from `i`. -/
def subtractPredecessors (startFree : Nat) : Nat → (Nat → Nat) → Nat → Nat
  | 0, frames => frames
  | i + 1, frames =>
    if frames i = 0 then frames
    else subtractPredecessors startFree i
      (Function.update frames i (sub32 (frames i) startFree))

/-- `alloc_update_free_predecessors`. -/
def allocUpdateFreePredecessors (r : Region) (firstFrame : Nat) : Except Fault Region :=
  (r.free firstFrame).map fun startFree =>
    { r with frames := subtractPredecessors startFree firstFrame r.frames }

/-- The first loop of `mark_frames_used`, over `k` frames. -/
def clearFrames : Nat → Nat → (Nat → Nat) → Nat → Nat
  | 0, _, frames => frames
  | k + 1, j, frames => clearFrames k (j + 1) (Function.update frames j 0)

/-- The innermost loop of `mark_frames_used`: `k` entries from `frame` on. -/
def putFrames (owner width : Nat) : Nat → Nat → Ramtab → Ramtab
  | 0, _, t => t
  | k + 1, frame, t => putFrames owner width k (add32 frame 1) (t.put frame owner width .unused)

/-- The second loop of `mark_frames_used`, over `k` logical frames. -/
def putLogFrames (owner width ridx fshift : Nat) : Nat → Nat → Ramtab → Ramtab
  | 0, _, t => t
  | k + 1, j, t => putLogFrames owner width ridx fshift k (j + 1)
      (putFrames owner width (shl32 1 fshift) (add32 ridx (shl32 j fshift)) t)

/-- `mark_frames_used`, on the region record `r` of region number `i`. -/
def markFramesUsed (owner i : Nat) (r : Region) (firstFrame nFrames : Nat) (s : State) :
    Except Fault State :=
  let last := add32 firstFrame nFrames
  let k := last - firstFrame
  if r.nLogicalFrames < firstFrame + k then .error (.index r.nLogicalFrames)
  else
    .ok
      { s with
        regions := s.regions.set i { r with frames := clearFrames k firstFrame r.frames }
        ramtab :=
          if r.ramtab then
            putLogFrames owner r.frameWidth (shr32 r.start frameWidth)
              (sub32 r.frameWidth frameWidth) k firstFrame s.ramtab
          else s.ramtab
        grants := ⟨i, firstFrame, k, owner⟩ :: s.grants }

/-- `alloc_update_free_predecessors` and `mark_frames_used`, as every caller
runs them one after the other. -/
def takeFrames (owner : Nat) (g : Found) (s : State) : Except Fault State :=
  match s.regions[g.region]? with
  | none => .error .uninitialised
  | some r => (allocUpdateFreePredecessors r g.first).bind fun r =>
      markFramesUsed owner g.region r g.first g.nFrames s

/-! ## §6. The region list of a client. -/

/-- `add_range_element`; `none` when the heap has no room. -/
def addRangeElement (l : RegionList) (room : Bool) (e : RangeElement) : Option RegionList :=
  if room then some { l with elements := e :: l.elements } else none

/-- The loop of `add_range`: whether it stops at an element, and the start of
the element (or list head) after the last one looked at. -/
def findPlace (headStart start end_ : Nat) : List RangeElement → Nat → Bool × Nat
  | [], nextStart => (false, nextStart)
  | e :: es, _ =>
    let currentEnd := add32 e.start (shl32 e.nPhysFrames frameWidth)
    let nextStart := match es with
      | [] => headStart
      | e' :: _ => e'.start
    if currentEnd ≤ start ∧ end_ ≤ nextStart then (true, nextStart)
    else findPlace headStart start end_ es nextStart

/-- `add_range`. -/
def addRange (c : Client) (room : Bool) (start nPhysFrames width : Nat) :
    Except Fault Client :=
  if !c.heap || nPhysFrames = 0 then .ok c
  else
    match c.regionList with
    | none => .ok c
    | some l =>
      let end_ := add32 start (shl32 nPhysFrames frameWidth)
      let added (l : Option RegionList) : Except Fault Client :=
        match l with
        | none => .error (.panic "Something's wrong.")
        | some l => .ok { c with regionList := some l }
      match l.elements with
      | [] => added (addRangeElement l room ⟨start, nPhysFrames, width⟩)
      | e :: es =>
        match findPlace l.headStart start end_ l.elements 0 with
        | (true, _) => .error (.panic "Unimplemented!")
        | (false, nextStart) =>
          if end_ = nextStart then
            -- merge on rhs
            added (some { l with elements :=
              { e with start, nPhysFrames := add32 e.nPhysFrames nPhysFrames } :: es })
          else added (addRangeElement l room ⟨start, nPhysFrames, width⟩)

/-! ## §7. The operations of a client. -/

/-- The frames that `allocate_range` asks for: any, or those at `start`. -/
def findFrames (nPhysFrames width start : Nat) (regions : List Region) :
    Except Fault (Option Found) :=
  if unaligned start then allocAny nPhysFrames width regions 0
  else if !isAlignedToFrameWidth start width then .ok none
  else (allocRange nPhysFrames start regions).map some

/-- `system_frame_allocator_v1_allocate_range`, by client number `id`. -/
def allocateRange (id bytes width start : Nat) (room : Bool) (s : State) :
    Except Fault (Nat × State) :=
  match s.clients[id]? with
  | none => .error .uninitialised
  | some c =>
    if bytes = 0 then .ok (noAddress, s)
    else
      let width := max width frameWidth
      let nPhysFrames := shr32 (alignToFrameWidth bytes width) frameWidth
      if c.guaranteedFrames < add32 c.nAllocatedPhysFrames nPhysFrames then .ok (noAddress, s)
      else
        (findFrames nPhysFrames width start s.regions).bind fun
        | none => .ok (noAddress, s)
        | some g =>
          match s.regions[g.region]? with
          | none => .error .uninitialised
          | some r =>
            -- the region's frames may be wider than what was asked for
            let wider := width < r.frameWidth
            let nPhysFrames :=
              if wider then shr32 (alignToFrameWidth bytes r.frameWidth) frameWidth
              else nPhysFrames
            let width := if wider then r.frameWidth else width
            let start := frameAddress r g.first
            (takeFrames c.owner g s).bind fun s =>
              let c := { c with
                nAllocatedPhysFrames := add32 c.nAllocatedPhysFrames nPhysFrames }
              (addRange c room start nPhysFrames width).map fun c =>
                (start, { s with clients := s.clients.set id c })

/-- `system_frame_allocator_v1_allocate`. -/
def allocate (id bytes width : Nat) (room : Bool) (s : State) : Except Fault (Nat × State) :=
  allocateRange id bytes width noAddress room s

/-- The ownership check of `free`, over `k` frames from `frame` on. -/
def checkOwned (owner width : Nat) (t : Ramtab) : Nat → Nat → Except Fault Unit
  | 0, _ => .ok ()
  | k + 1, frame =>
    match t.get frame with
    | none =>
      if ownerOutside ≠ owner then .error (.panic "Frame allocator misuse.")
      else .error .uninitialised
    | some e =>
      if e.owner ≠ owner then .error (.panic "Frame allocator misuse.")
      else if e.frameWidth ≠ width then .error (.panic "Frame allocator misuse.")
      else if e.state = .mapped ∨ e.state = .nailed then
        .error (.panic "Frame allocator misuse.")
      else checkOwned owner width t k (add32 frame 1)

/-- The first loop of `free`, over `k` frames going down from `i`. -/
def raiseFreed : Nat → Nat → Nat → (Nat → Nat) → (Nat → Nat) × Nat
  | 0, _, endFree, frames => (frames, endFree)
  | k + 1, i, endFree, frames =>
    raiseFreed k (i - 1) (add32 endFree 1) (Function.update frames i (add32 endFree 1))

/-- The second loop of `free`, going down from `i`. -/
def raisePredecessors : Nat → Nat → (Nat → Nat) → Nat → Nat
  | 0, _, frames => frames
  | i + 1, endFree, frames =>
    if frames i = 0 then frames
    else raisePredecessors i (add32 endFree 1) (Function.update frames i (add32 endFree 1))

/-- The ramtab loop of `free`, over `k` frames from `j` on. -/
def putNone (width ridx fshift : Nat) : Nat → Nat → Ramtab → Ramtab
  | 0, _, t => t
  | k + 1, j, t => putNone width ridx fshift k (j + 1)
      (t.put (add32 ridx (shl32 j fshift)) ownerNone width .unused)

/-- The counters after `free` of the logical frames `[startLog, endLog)`.  The
first loop starts at `endLog` itself, and never ends when `startLog` is 0. -/
def freeFrames (r : Region) (startLog endLog : Nat) : Except Fault Region :=
  if r.nLogicalFrames < endLog then .error (.panic "Frame allocator misuse.")
  else if startLog = 0 then .error .endless
  else
    let endFree := if endLog = r.nLogicalFrames then 0 else r.frames endLog
    if endLog = r.nLogicalFrames then .error (.index endLog)
    else
      let (frames, endFree) := raiseFreed (endLog + 1 - startLog) endLog endFree r.frames
      let i := if startLog ≤ endLog then startLog - 1 else endLog
      .ok { r with frames := raisePredecessors (i + 1) endFree frames }

/-- The width the frame at `addr` was allocated with. -/
def allocationFrameWidth (ramtab : Ramtab) (r : Region) (addr : Nat) : Nat :=
  if r.ramtab then
    match ramtab.get (physFrameNumber addr) with
    | some e => e.frameWidth
    | none => r.frameWidth
  else r.frameWidth

/-- `system_frame_allocator_v1_free`, by client number `id`. -/
def free (id addr bytes : Nat) (s : State) : Except Fault State :=
  match s.clients[id]?, getRegion addr s.regions 0 with
  | none, _ => .error .uninitialised
  | _, none => .error (.panic "Frame allocator misuse.")
  | some c, some (i, r) =>
    let width := allocationFrameWidth s.ramtab r addr
    let end_ := alignToFrameWidth (add32 addr bytes) width
    let addr := shl32 (shr32 addr width) width
    let nPhysFrames := physFrameNumber (sub32 end_ addr)
    (if r.ramtab then
      checkOwned c.owner width s.ramtab nPhysFrames (physFrameNumber addr)
    else .ok ()).bind fun _ =>
      let startLogFrame := bytesToLogFrames (sub32 addr r.start) r.frameWidth
      let endLogFrame := bytesToLogFrames (sub32 end_ r.start) r.frameWidth
      (freeFrames r startLogFrame endLogFrame).map fun r' =>
        let newPhysFrames := sub32 c.nAllocatedPhysFrames nPhysFrames
        { s with
          regions := s.regions.set i r'
          ramtab :=
            if r.ramtab then
              putNone r.frameWidth (shr32 r.start frameWidth)
                (sub32 r.frameWidth frameWidth) (endLogFrame - startLogFrame)
                startLogFrame s.ramtab
            else s.ramtab
          clients := s.clients.set id { c with
            nAllocatedPhysFrames :=
              if c.nAllocatedPhysFrames < newPhysFrames then 0 else newPhysFrames } }

/-- `system_frame_allocator_v1_create_client`, by the system client; `none` is
the answer `NULL`.  The region list head of the new domain has an unknown
`start` member. -/
def createClient (ownerDcbVirt grantedFrames extraFrames initAllocFrames : Nat)
    (headStart : Nat) (stateRoom listRoom : Bool) (s : State) :
    Except Fault (Option Nat × State) :=
  match s.clients[0]? with
  | none => .error .uninitialised
  | some system =>
    if !system.heap then .ok (none, s)
    else
      let initAllocFrames := min initAllocFrames grantedFrames
      let extraFrames := max extraFrames grantedFrames
      if !stateRoom then .error (.panic "Out of memory.")
      else
        (allocAny initAllocFrames frameWidth s.regions 0).bind fun
        | none => .error (.panic "Out of physical memory.")
        | some g =>
          match s.regions[g.region]? with
          | none => .error .uninitialised
          | some r =>
            if g.nFrames ≠ initAllocFrames then
              .error (.panic "Region with non-standard frame width! Unsupported.")
            else
              let start := frameAddress r g.first
              (takeFrames ownerDcbVirt g s).bind fun s =>
                let system := { system with
                  nAllocatedPhysFrames := add32 system.nAllocatedPhysFrames initAllocFrames }
                let client : Client :=
                  { owner := ownerDcbVirt, nAllocatedPhysFrames := initAllocFrames
                    guaranteedFrames := grantedFrames, extraFrames, heap := true
                    regionList := some ⟨headStart, []⟩ }
                (addRange client listRoom start initAllocFrames frameWidth).map fun client =>
                  (some s.clients.length,
                    { s with clients := s.clients.set 0 system ++ [client] })

/-! ## §8. The module. -/

/-- The region that `create` makes of an entry; addresses and sizes lose
their upper 32 bits. -/
def mkRegion (e : MmapEntry) : Region :=
  let n := physFrameNumber (e.size % wordSize)
  { start := e.address % wordSize
    nLogicalFrames := n
    frameWidth := frameWidth
    attrs := if e.type.isRam then .regular else .nonMemory
    ramtab := e.type.isRam
    frames := fun j => n - j }

/-- The second pass of `create`: the frames of a `non_free` entry are marked
used. -/
def reserveEntry (e : MmapEntry) (s : State) : Except Fault State :=
  match s.clients[0]? with
  | none => .error .uninitialised
  | some system =>
    (allocRange (sizeInWholeFrames e.size frameWidth % wordSize) (e.address % wordSize)
        s.regions).bind fun g =>
      if g.nFrames = 0 then .error (.panic "Already allocated range deemed unavailable!")
      else
        (takeFrames system.owner g s).map fun s =>
          { s with clients := s.clients.set 0 { system with
              nAllocatedPhysFrames := add32 system.nAllocatedPhysFrames g.nFrames } }

/-- Run the second pass over the entries of the map. -/
def reserveEntries : List MmapEntry → State → Except Fault State
  | [], s => .ok s
  | e :: es, s =>
    if e.type = .nonFree then (reserveEntry e s).bind (reserveEntries es)
    else reserveEntries es s

/-- `frames_module_v1_create`; `regionList` is what the memory of the system
client's record holds in the member that `create` does not set. -/
def create (map : List MmapEntry) (ramtab : Ramtab) (regionList : Option RegionList) :
    Except Fault State :=
  let regions := (map.filter fun e => e.type ≠ .nonFree).map mkRegion
  if regions = [] then .error .uninitialised
  else
    let system : Client :=
      { owner := ownerSystem, nAllocatedPhysFrames := 0, guaranteedFrames := 0xffffffff
        extraFrames := 0xffffffff, heap := false, regionList }
    reserveEntries map ⟨regions, ramtab, [system], []⟩

/-- `frames_module_v1_finish_init`. -/
def finishInit (s : State) : Except Fault State :=
  match s.clients[0]? with
  | none => .error .uninitialised
  | some system =>
    if system.heap then .error (.panic "Double initialisation of frames module!")
    else .ok { s with clients := s.clients.set 0 { system with heap := true } }

end Metta.FramesMod
