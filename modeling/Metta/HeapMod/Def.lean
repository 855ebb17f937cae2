/-
  Metta.HeapMod.Def — `heap_t` of modules/heap_mod/heap.cpp.

  The boundary-tag heap: 16-byte records laid end to end, a `prev` word in
  each record that is either `HEAP_MAGIC` or the size of the free block
  physically before it, and `COUNT` singly linked free lists headed in
  `blocks[]`.  Records live in a byte memory; every field access below is a
  32-bit load or store at the field's offset, and pointer arithmetic is
  modulo `2 ^ 32`.

  The loops of the source need not return (`coalesce_move_blocks` can put a
  block back in front of itself), so each loop takes a bound on its number
  of iterations and answers `Fault.running` when the bound is used up: a
  call returns when some bound is enough.  The heap lock is held by the
  callers (heap_v1_allocate, heap_v1_free) and is not part of the state;
  `HEAP_DEBUG` code and logging are left out.
-/
import Metta.Machine.Memory

namespace Metta.HeapMod

open Metta.Machine

/-! ## §1. Constants and size classes. -/

/-- `HEAP_MAGIC`. -/
def heapMagic : Nat := 0xfa11dead

/-- `sizeof(heap_rec_t)`: the words `prev`, `size`, `index` and `heap`/`next`. -/
def recSize : Nat := 16

/-- `MIN_HEAP_OVERHEAD`: the null_malloc, first and end records. -/
def minHeapOverhead : Nat := recSize * 3

/-- `WORD_SIZE`, `sizeof(uint64_t)`. -/
def wordBytes : Nat := 8

def smallBlocks : Nat := 16
def largeBlocks : Nat := 24

/-- `COUNT`, the number of free lists. -/
def count : Nat := smallBlocks + largeBlocks + 1

/-- `OTHER_INDEX`. -/
def otherIndex : Nat := count - 1

/-- `MIN_FRAG`: the smallest fragment worth splitting off. -/
def minFrag : Nat := recSize + 1 * wordBytes

def smallLimit : Nat := 16 * wordBytes
def largeLimit : Nat := 1296 * wordBytes

/-- The multipliers of `all_sizes`, in words. -/
def sizeWords : List Nat :=
  [1, 2, 3, 4, 5, 6, 7, 8, 9, 10, 11, 12, 13, 14, 15, 16,
   19, 23, 28, 34, 41, 49, 59, 71, 85, 102, 122, 146, 175, 210, 252, 302,
   362, 434, 521, 625, 750, 900, 1080, 1296]

/-- `all_sizes[i]`; the entry of `OTHER_INDEX` is `~0U`. -/
def allSizes (i : Nat) : Nat :=
  match sizeWords[i]? with
  | some w => w * wordBytes
  | none => 0xffffffff

/-- `BLOCK_ALIGN`: `(x + 8) & -8` in 32 bits. -/
def blockAlign (x : Nat) : Nat := add32 x wordBytes &&& (wordSize - wordBytes)

/-- `SMALL_INDEX`: the subtraction wraps at zero. -/
def smallIndex (x : Nat) : Nat := sub32 x 1 / wordBytes

/-- The linear scan that ends `find_index`. -/
def scanSizes (size mi hi : Nat) : Nat :=
  if mi ≤ hi then
    if size ≤ allSizes mi then mi else scanSizes size (mi + 1) hi
  else otherIndex
termination_by hi + 1 - mi

/-- The binary search of `find_index`, down to a window of at most five
classes, followed by the scan. -/
def searchSizes (size lo hi : Nat) : Nat :=
  if lo + 4 < hi then
    let mi := (lo + hi) / 2
    if size = allSizes mi then mi
    else if size < allSizes mi then searchSizes size lo mi
    else searchSizes size mi hi
  else scanSizes size lo hi
termination_by hi - lo

/-- `heap_t::find_index`. -/
def findIndex (size : Nat) : Nat :=
  if size ≤ smallLimit then smallIndex size
  else if size ≤ largeLimit then searchSizes size smallBlocks (otherIndex - 1)
  else otherIndex

/-! ## §2. Heaps and records. -/

/-- Why a call does not return a result. -/
inductive Fault where
  /-- `blocks[i]` was used with `i` outside `[0, COUNT)`. -/
  | listIndex (i : Nat)
  /-- `PANIC` or a failed `ASSERT`. -/
  | panic (message : String)
  /-- The iteration bound of a loop was used up. -/
  | running
  deriving Repr, DecidableEq

/-- A `heap_t` with the memory its records live in. -/
structure Heap where
  mem : Memory
  /-- The address of the `heap_t` itself (`this`). -/
  self : Nat
  /-- `blocks[COUNT]`, the heads of the free lists. -/
  blocks : Nat → Nat
  nullMalloc : Nat
  startAddress : Nat
  endAddress : Nat

namespace Heap

def prev (h : Heap) (r : Nat) : Nat := h.mem.load32 r
def size (h : Heap) (r : Nat) : Nat := h.mem.load32 (r + 4)
def index (h : Heap) (r : Nat) : Nat := h.mem.load32 (r + 8)
def next (h : Heap) (r : Nat) : Nat := h.mem.load32 (r + 12)

/-- A 32-bit store into the record area. -/
def store (h : Heap) (a v : Nat) : Heap := { h with mem := h.mem.store32 a v }

def setPrev (h : Heap) (r v : Nat) : Heap := h.store r v
def setSize (h : Heap) (r v : Nat) : Heap := h.store (r + 4) v
def setIndex (h : Heap) (r v : Nat) : Heap := h.store (r + 8) v
def setNext (h : Heap) (r v : Nat) : Heap := h.store (r + 12) v

/-- The `heap` member shares its word with `next`. -/
def setHeap (h : Heap) (r v : Nat) : Heap := h.store (r + 12) v

def setBlocks (h : Heap) (i v : Nat) : Heap :=
  { h with blocks := Function.update h.blocks i v }

/-- `prev_block`. -/
def prevBlock (h : Heap) (r : Nat) : Nat := sub32 (sub32 r recSize) (h.prev r)

/-- `next_block`. -/
def nextBlock (h : Heap) (r : Nat) : Nat := add32 (add32 r recSize) (h.size r)

/-- Reading `blocks[i]`. -/
def getBlocks (h : Heap) (i : Nat) : Except Fault Nat :=
  if i < count then .ok (h.blocks i) else .error (.listIndex i)

/-- What a `heap_rec_t**` can point at: a list head or a record's `next`. -/
inductive Slot where
  | list (i : Nat)
  | next (r : Nat)
  deriving Repr, DecidableEq

/-- `*ptr`. -/
def read (h : Heap) : Slot → Nat
  | .list i => h.blocks i
  | .next r => h.next r

/-- `*ptr = v`. -/
def write (h : Heap) : Slot → Nat → Heap
  | .list i, v => h.setBlocks i v
  | .next r, v => h.setNext r v

/-! ## §3. The operations. -/

/-- `heap_t::init`. -/
def init (mem : Memory) (self start end_ : Nat) : Except Fault Heap :=
  let h : Heap :=
    { mem, self, blocks := fun _ => 0, nullMalloc := start
      startAddress := start, endAddress := end_ }
  -- first entry: the null_malloc marker, with index -1
  let h := (((h.setPrev start heapMagic).setSize start 0).setIndex start
    0xffffffff).setHeap start self
  -- second entry: all free space in the heap
  let r := add32 start recSize
  let h := (((h.setPrev r heapMagic).setSize r (sub32 (sub32 end_ start)
    minHeapOverhead)).setIndex r otherIndex).setNext r 0
  let h := h.setBlocks otherIndex r
  -- third entry: the end marker
  let endRec := h.nextBlock r
  let h := ((h.setPrev endRec (h.size r)).setSize endRec 0).setIndex endRec 0
  if endRec ≠ sub32 end_ recSize then .error (.panic "end_rec")
  else if h.prevBlock endRec ≠ r then .error (.panic "prev_block(end_rec)")
  else .ok h

/-- The loop of `coalesce_merge_blocks`: blocks whose predecessor is free are
absorbed into it and leave the list. -/
def mergeLoop : Nat → Slot → Heap → Except Fault Heap
  | 0, _, _ => .error .running
  | n + 1, ptr, h =>
    let freeBlock := h.read ptr
    if freeBlock = 0 then .ok h
    else if h.prev freeBlock ≠ heapMagic then
      let beforeBlock := h.prevBlock freeBlock
      if h.nextBlock beforeBlock ≠ freeBlock then .error (.panic "Out of sanity!")
      else
        let h := h.setSize beforeBlock
          (add32 (h.size beforeBlock) (add32 (h.size freeBlock) recSize))
        let afterBlock := h.nextBlock freeBlock
        let h := h.setPrev afterBlock (h.size beforeBlock)
        mergeLoop n ptr (h.write ptr (h.next freeBlock))
    else mergeLoop n (.next freeBlock) h

/-- `heap_t::coalesce_merge_blocks`. -/
def coalesceMergeBlocks (bound index : Nat) (h : Heap) : Except Fault Heap :=
  mergeLoop bound (.list index) h

/-- The loop of `coalesce_move_blocks`: a block whose size class is no longer
that of its list goes to the front of the `OTHER_INDEX` list. -/
def moveLoop : Nat → Slot → Heap → Except Fault Heap
  | 0, _, _ => .error .running
  | n + 1, ptr, h =>
    let freeBlock := h.read ptr
    if freeBlock = 0 then .ok h
    else if findIndex (h.size freeBlock) ≠ h.index freeBlock then
      let h := h.write ptr (h.next freeBlock)
      let h := h.setNext freeBlock (h.blocks otherIndex)
      let h := h.setBlocks otherIndex freeBlock
      let h := h.setIndex freeBlock otherIndex
      moveLoop n ptr h
    else moveLoop n (.next freeBlock) h

/-- `heap_t::coalesce_move_blocks`. -/
def coalesceMoveBlocks (bound index : Nat) (h : Heap) : Except Fault Heap :=
  moveLoop bound (.list index) h

/-- Run a pass over the lists `0 .. n - 1`, as the loops of `coalesce` do. -/
def forLists (pass : Nat → Heap → Except Fault Heap) : Nat → Heap → Except Fault Heap
  | 0, h => .ok h
  | n + 1, h => (forLists pass n h).bind (pass n)

/-- `heap_t::coalesce`. -/
def coalesce (bound : Nat) (h : Heap) : Except Fault Heap :=
  (forLists (coalesceMergeBlocks bound) (otherIndex + 1) h).bind
    (forLists (coalesceMoveBlocks bound) (otherIndex + 1))

/-- The loop of `get_new_block_internal`: first fit on the `OTHER_INDEX`
list, cutting the request off the end of a large enough block. -/
def newBlockLoop (size index : Nat) : Nat → Slot → Heap → Except Fault (Nat × Heap)
  | 0, _, _ => .error .running
  | n + 1, ptr, h =>
    let freeBlock := h.read ptr
    if freeBlock = 0 then .ok (0, h)
    else if size ≤ h.size freeBlock then
      if minFrag ≤ sub32 (h.size freeBlock) size then
        let allocatedBlock := sub32 (add32 freeBlock (h.size freeBlock)) size
        let h := (h.setSize allocatedBlock size).setIndex allocatedBlock index
        let h := h.setSize freeBlock (sub32 (h.size freeBlock) (add32 size recSize))
        let h := h.setPrev allocatedBlock (h.size freeBlock)
        .ok (allocatedBlock, h)
      else
        -- too small to split: take all
        let h := h.setIndex freeBlock index
        .ok (freeBlock, h.write ptr (h.next freeBlock))
    else newBlockLoop size index n (.next freeBlock) h

/-- `heap_t::get_new_block_internal`. -/
def getNewBlockInternal (bound size index : Nat) (h : Heap) : Except Fault (Nat × Heap) :=
  newBlockLoop size index bound (.list otherIndex) h

/-- `heap_t::get_new_block`. -/
def getNewBlock (bound size index : Nat) (h : Heap) : Except Fault (Nat × Heap) :=
  let size := if index ≠ otherIndex then allSizes index else size
  (getNewBlockInternal bound size index h).bind fun (newFreeBlock, h) =>
    if newFreeBlock ≠ 0 then .ok (newFreeBlock, h)
    else (coalesce bound h).bind (getNewBlockInternal bound size index)

/-- The end of `allocate`, once a block has been found. -/
def finishAllocate (freeBlock : Nat) (h : Heap) : Nat × Heap :=
  let h := h.setHeap freeBlock h.self
  (add32 freeBlock recSize, h.setPrev (h.nextBlock freeBlock) heapMagic)

/-- `heap_t::allocate`; the answer `0` is `NULL`. -/
def allocate (bound size : Nat) (h : Heap) : Except Fault (Nat × Heap) :=
  if size = 0 then .ok (h.nullMalloc, h)
  else
    let size := blockAlign size
    let index := findIndex size
    (h.getBlocks index).bind fun freeBlock =>
      if freeBlock = 0 ∨ index = otherIndex then
        (getNewBlock bound size index h).bind fun (freeBlock, h) =>
          if freeBlock = 0 then .ok (0, h) else .ok (finishAllocate freeBlock h)
      else
        let h := h.setBlocks index (h.next freeBlock)
        .ok (finishAllocate freeBlock h)

/-- `heap_t::free`. -/
def free (p : Nat) (h : Heap) : Except Fault Heap :=
  if p = 0 ∨ p = h.nullMalloc then .ok h
  else
    let toFree := sub32 p recSize
    let nextBlock := h.nextBlock toFree
    (h.getBlocks (h.index toFree)).bind fun head =>
      let h := h.setNext toFree head
      let h := h.setBlocks (h.index toFree) toFree
      .ok (h.setPrev nextBlock (h.size toFree))

end Heap

end Metta.HeapMod
