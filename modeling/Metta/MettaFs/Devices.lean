/-
  Metta.MettaFs.Devices — block_cache.cpp of mettafs.

  The cache is shared by any number of devices with blocks of any sizes, blocks are
  linked by pointers, the map may hold null pointers, and a call can throw and be
  followed by others.  Blocks are numbered as they are allocated.  A read is given
  what the caller's buffer holds, for not every read fills it.

    • `Devices` — the devices behind the device mapper,
    • `LruList`, `linkAtMru`, `linkAtLru`, `unlinkFrom` — `cache_block_list_t` and the links,
    • `SharedCache`, `getBlocks`, `cachedRead`, `cachedWrite`, `flush`,
    • `SharedCall`, `step`, `run` — sequences of calls.
-/
import Mathlib.Logic.Function.Basic
import Metta.Machine.UnorderedMap

namespace Metta.MettaFs

open Metta.Machine

/-! ## §1. Devices. -/

/-- The devices of a `block_device_mapper_t`, with a state of their own: which numbers are mapped,
`read_block` (from what the buffer holds, what it holds then, and the number of bytes) and
`write_block`. -/
structure Devices (δ : Type) where
  mapped : Nat → Bool
  readBlock : δ → Nat → Nat → Nat → List UInt8 → (List UInt8 × Nat) × δ
  writeBlock : δ → Nat → Nat → List UInt8 → δ

/-! ## §2. The list of blocks. -/

/-- `cache_block_list_t`, with the links of all blocks: `next_mru` and `prev_lru`. -/
structure LruList where
  mru : Option Nat
  lru : Option Nat
  nextMru : Nat → Option Nat
  prevLru : Nat → Option Nat

namespace LruList

/-- No block is linked. -/
def empty : LruList := ⟨none, none, fun _ => none, fun _ => none⟩

/-- `blk->next_mru = n`, where there is a block. -/
def setNextMru (l : LruList) (blk n : Option Nat) : LruList :=
  match blk with
  | some id => { l with nextMru := Function.update l.nextMru id n }
  | none => l

/-- `blk->prev_lru = p`, where there is a block. -/
def setPrevLru (l : LruList) (blk p : Option Nat) : LruList :=
  match blk with
  | some id => { l with prevLru := Function.update l.prevLru id p }
  | none => l

/-- `link_at_mru`; nothing where one of its assertions fails. -/
def linkAtMru (l : LruList) (id : Nat) : Option LruList :=
  if l.prevLru id = none ∧ l.nextMru id = none then
    let l := if l.mru.isSome then (l.setPrevLru (some id) l.mru).setNextMru l.mru (some id) else l
    let l := { l with mru := some id }
    some (if l.lru.isNone then { l with lru := some id } else l)
  else none

/-- `link_at_lru`, with the same assertions. -/
def linkAtLru (l : LruList) (id : Nat) : Option LruList :=
  if l.prevLru id = none ∧ l.nextMru id = none then
    let l := if l.lru.isSome then (l.setNextMru (some id) l.lru).setPrevLru l.lru (some id) else l
    let l := { l with lru := some id }
    some (if l.mru.isNone then { l with mru := some id } else l)
  else none

/-- `unlink_from`. -/
def unlinkFrom (l : LruList) (id : Nat) : LruList :=
  let l := l.setNextMru (l.prevLru id) (l.nextMru id)
  let l := l.setPrevLru (l.nextMru id) (l.prevLru id)
  let l := if l.lru = some id then { l with lru := l.nextMru id } else l
  let l := if l.mru = some id then { l with mru := l.prevLru id } else l
  (l.setNextMru (some id) none).setPrevLru (some id) none

end LruList

/-! ## §3. The cache. -/

/-- `cache_block_t` but for its links. -/
structure SizedBlock where
  device : Nat
  blockNum : Nat
  blockSize : Nat
  data : List UInt8
  dirty : Bool
  busy : Bool

/-- `is_usable`. -/
def SizedBlock.isUsable (blk : SizedBlock) : Bool := !blk.dirty && !blk.busy

/-- `new cache_block_t(-1, -1, block_size)`. -/
def SizedBlock.new (blockSize : Nat) : SizedBlock :=
  ⟨2 ^ 32 - 1, 2 ^ 64 - 1, blockSize, List.replicate blockSize 0, false, false⟩

/-- `block_cache_t`: `entries` are the blocks by their numbers, `live` tells which of them have
not been deleted, `next` is the number of the next one; `disk` is the state of the devices. -/
structure SharedCache (δ : Type) where
  cache : UnorderedMap (Nat × Nat) (Option Nat)
  entries : Nat → SizedBlock
  live : Nat → Bool
  next : Nat
  blocks : LruList
  maxBlocks : Nat
  disk : δ

/-- How a call can end without returning: with an exception, which leaves the cache as it is
then, by an assertion, or not at all. -/
inductive Stop (δ : Type) where
  | thrown (what : String) (st : SharedCache δ)
  | assertion
  | outOfFuel

namespace SharedCache

variable {δ : Type}

/-- `block_cache_t(n_blocks)`. -/
def new (nBlocks : Nat) (disk : δ) : SharedCache δ :=
  ⟨.empty, fun _ => .new 0, fun _ => false, 0, .empty, nBlocks, disk⟩

/-- `block_lookup`: null also where the map has a null pointer. -/
def blockLookup (st : SharedCache δ) (device blockN : Nat) : Option Nat :=
  (st.cache.find (device, blockN)).join

/-- `read_blocks` and `block_device_mapper_t::read`. -/
def readBlocks (dv : Devices δ) (st : SharedCache δ) (device blockN : Nat) (buffer : List UInt8)
    (nblocks blockSize : Nat) : Except (Stop δ) ((List UInt8 × Nat) × SharedCache δ) :=
  if dv.mapped device then
    let (read, disk) := dv.readBlock st.disk device blockN (nblocks * blockSize % 2 ^ 64) buffer
    .ok (read, { st with disk := disk })
  else .error .assertion

/-- `write_blocks` and `block_device_mapper_t::write`. -/
def writeBlocks (dv : Devices δ) (st : SharedCache δ) (device blockN : Nat) (data : List UInt8)
    (nblocks blockSize : Nat) : Except (Stop δ) (Nat × SharedCache δ) :=
  if dv.mapped device then
    let size := nblocks * blockSize % 2 ^ 64
    .ok (size, { st with disk := dv.writeBlock st.disk device blockN (data.take size) })
  else .error .assertion

/-- `new cache_block_t`, that many times. -/
def allocate (st : SharedCache δ) (n blockSize : Nat) : SharedCache δ × List Nat :=
  ({ st with
      entries := fun id =>
        if st.next ≤ id ∧ id < st.next + n then .new blockSize else st.entries id,
      live := fun id => if st.next ≤ id ∧ id < st.next + n then true else st.live id,
      next := st.next + n },
    List.range' st.next n)

/-- The inner loop of `get_blocks`: the first block from `blk` on that can be used again. -/
def usableFrom (st : SharedCache δ) (blockSize : Nat) : Nat → Option Nat → Option (Option Nat)
  | _, none => some none
  | 0, some _ => none
  | fuel + 1, some id =>
      if !(st.entries id).isUsable || (st.entries id).blockSize != blockSize then
        usableFrom st blockSize fuel (st.blocks.nextMru id)
      else some (some id)

/-- The second loop of `get_blocks`.  When no block can be used again, it goes on looking. -/
def evict (blockSize : Nat) :
    Nat → Nat → SharedCache δ → List Nat → Except (Stop δ) (SharedCache δ × List Nat)
  | _, 0, st, ret => .ok (st, ret)
  | 0, _ + 1, _, _ => .error .outOfFuel
  | fuel + 1, n + 1, st, ret =>
      match st.usableFrom blockSize fuel st.blocks.lru with
      | none => .error .outOfFuel
      | some none => evict blockSize fuel (n + 1) st ret
      | some (some id) =>
          evict blockSize fuel n { st with blocks := st.blocks.unlinkFrom id } (ret ++ [id])

/-- `get_blocks`. -/
def getBlocks (fuel : Nat) (st : SharedCache δ) (nblocks blockSize : Nat) :
    Except (Stop δ) (SharedCache δ × List Nat) :=
  if nblocks > st.maxBlocks then
    .error (.thrown "Cannot allocate more blocks than allowed in the cache in total!" st)
  else
    let nfree := (st.maxBlocks + 2 ^ 64 - st.cache.size) % 2 ^ 64
    let (st, ret) := st.allocate (min nfree nblocks) blockSize
    evict blockSize fuel (nblocks - min nfree nblocks) st ret

/-- A block that is in the cache is the most recently used one from now on. -/
def touch (st : SharedCache δ) (id : Nat) : Except (Stop δ) (SharedCache δ) :=
  match (st.blocks.unlinkFrom id).linkAtMru id with
  | some blocks => .ok { st with blocks := blocks }
  | none => .error .assertion

/-! ## §4. Reading. -/

/-- The large read goes over the `nblocks` blocks it has read into `buffer`. -/
def updateDirty (device blockSize : Nat) :
    SharedCache δ → Nat → Nat → List UInt8 → Except (Stop δ) (SharedCache δ)
  | st, _, 0, _ => .ok st
  | st, blockN, nblocks + 1, buffer =>
      let rest := fun st =>
        updateDirty device blockSize st ((blockN + 1) % 2 ^ 64) nblocks (buffer.drop blockSize)
      match st.blockLookup device blockN with
      | some id =>
          let blk := st.entries id
          if blk.blockSize ≠ blockSize then .error .assertion
          else if blk.dirty then
            let blk := { blk with data := buffer.take blockSize }
            rest { st with entries := Function.update st.entries id blk }
          else rest st
      | none => rest st

/-- How many blocks from `blockN` on are not in the cache, of `nblocks`; the first is not. -/
def stripe (st : SharedCache δ) (device blockN nblocks : Nat) : Nat :=
  1 + ((List.range (nblocks - 1)).takeWhile fun k =>
    (st.blockLookup device ((blockN + 1 + k) % 2 ^ 64)).isNone).length

/-- The loop of a small read, with what is `done` of the buffer, and the rest of it. -/
def readSmall (dv : Devices δ) (device blockSize : Nat) : Nat → SharedCache δ → Nat → Nat →
    List UInt8 → List UInt8 → Except (Stop δ) (SharedCache δ × List UInt8)
  | _, st, _, 0, done, buffer => .ok (st, done ++ buffer)
  | 0, _, _, _ + 1, _, _ => .error .outOfFuel
  | fuel + 1, st, blockN, nblocks + 1, done, buffer =>
      match st.blockLookup device blockN with
      | some id =>
          if (st.entries id).blockSize ≠ blockSize then .error .assertion
          else
            (st.touch id).bind fun st =>
              readSmall dv device blockSize fuel st ((blockN + 1) % 2 ^ 64) nblocks
                (done ++ (st.entries id).data) (buffer.drop blockSize)
      | none =>
          let blockStripe := st.stripe device blockN (nblocks + 1)
          (readBlocks dv st device blockN buffer blockStripe blockSize).bind
            fun ((buffer, actuallyRead), st) =>
              if actuallyRead < blockStripe then
                .error (.thrown "Read blocks from physical media failed! [make it nonfatal]" st)
              else
                (getBlocks fuel st blockStripe blockSize).bind fun (st, ents) =>
                  if ents.length < blockStripe then
                    .error (.thrown "Couldn't get enough block cache entries." st)
                  else readSmall dv device blockSize fuel st blockN (nblocks + 1) done buffer

/-- `cached_read`: what the buffer holds then, and the number that is returned. -/
def cachedRead (dv : Devices δ) (fuel : Nat) (st : SharedCache δ) (device blockN : Nat)
    (buffer : List UInt8) (nblocks blockSize : Nat) :
    Except (Stop δ) (SharedCache δ × List UInt8 × Nat) :=
  if nblocks * blockSize % 2 ^ 64 > 64 * 1024 then
    (readBlocks dv st device blockN buffer nblocks blockSize).bind
      fun ((buffer, actuallyRead), st) =>
        (updateDirty device blockSize st blockN nblocks buffer).map fun st =>
          (st, buffer, actuallyRead)
  else
    (readSmall dv device blockSize fuel st blockN nblocks [] buffer).map fun (st, buffer) =>
      (st, buffer, 0)

/-! ## §5. Writing. -/

/-- The block that is written to: the one of the cache, off the list, or a new one. -/
def entryFor (fuel : Nat) (st : SharedCache δ) (device blockN blockSize : Nat) :
    Except (Stop δ) (SharedCache δ × Nat) :=
  match st.blockLookup device blockN with
  | some id =>
      if (st.entries id).blockSize ≠ blockSize then .error .assertion
      else .ok ({ st with blocks := st.blocks.unlinkFrom id }, id)
  | none =>
      (getBlocks fuel st 1 blockSize).bind fun (st, ents) =>
        match ents with
        | [] => .error (.thrown "get_blocks failed" st)
        | id :: _ => .ok (st, id)

/-- The block takes the data, is dirty, of that device and number, and the most recently used. -/
def fill (st : SharedCache δ) (id device blockN : Nat) (data : List UInt8) :
    Except (Stop δ) (SharedCache δ) :=
  match st.blocks.linkAtMru id with
  | some blocks =>
      .ok { st with
        entries := Function.update st.entries id
          { st.entries id with data := data, dirty := true, device := device, blockNum := blockN },
        blocks := blocks,
        cache := st.cache.assign (device, blockN) (some id) }
  | none => .error .assertion

/-- The loop of `cached_write`. -/
def writeLoop (fuel device blockSize : Nat) :
    SharedCache δ → Nat → Nat → List UInt8 → Except (Stop δ) (SharedCache δ)
  | st, _, 0, _ => .ok st
  | st, blockN, nblocks + 1, buffer =>
      (entryFor fuel st device blockN blockSize).bind fun (st, id) =>
        (fill st id device blockN (buffer.take blockSize)).bind fun st =>
          writeLoop fuel device blockSize st ((blockN + 1) % 2 ^ 64) nblocks
            (buffer.drop blockSize)

/-- `cached_write`: the cache and the number of bytes. -/
def cachedWrite (fuel : Nat) (st : SharedCache δ) (device blockN : Nat) (data : List UInt8)
    (nblocks blockSize : Nat) : Except (Stop δ) (SharedCache δ × Nat) :=
  (writeLoop fuel device blockSize st blockN nblocks data).map fun st =>
    (st, nblocks * blockSize % 2 ^ 64)

/-! ## §6. Flushing. -/

/-- A block that was written out: off the list, null in the map, and deleted. -/
def drop (st : SharedCache δ) (dev id : Nat) : SharedCache δ :=
  { st with
    blocks := st.blocks.unlinkFrom id,
    cache := st.cache.assign (dev, (st.entries id).blockNum) none,
    live := Function.update st.live id false }

/-- The loop of `flush` from the block `blk` on. -/
def flushLoop (dv : Devices δ) (dev : Nat) :
    Nat → SharedCache δ → Option Nat → Except (Stop δ) (SharedCache δ × Bool)
  | _, st, none => .ok (st, true)
  | 0, _, some _ => .error .outOfFuel
  | fuel + 1, st, some id =>
      let blk := st.entries id
      if blk.busy || blk.device != dev then flushLoop dv dev fuel st (st.blocks.nextMru id)
      else
        (writeBlocks dv st dev blk.blockNum blk.data 1 blk.blockSize).bind fun (n, st) =>
          if n ≠ blk.blockSize then .ok (st, false)
          else flushLoop dv dev fuel (st.drop dev id) (st.blocks.nextMru id)

/-- `flush`. -/
def flush (dv : Devices δ) (fuel : Nat) (st : SharedCache δ) (dev : Nat) :
    Except (Stop δ) (SharedCache δ × Bool) :=
  flushLoop dv dev fuel st st.blocks.lru

/-! ## §7. Sequences of calls. -/

/-- A call; sizes are of type `size_t`. -/
inductive SharedCall where
  | read (device blockN : Nat) (buffer : List UInt8) (nblocks blockSize : UInt64)
  | write (device blockN : Nat) (data : List UInt8) (nblocks blockSize : UInt64)
  | flush (dev : Nat)

/-- The cache after a call, which has returned or thrown. -/
def ended : Except (Stop δ) (SharedCache δ) → Option (SharedCache δ)
  | .ok st => some st
  | .error (.thrown _ st) => some st
  | .error .assertion => none
  | .error .outOfFuel => none

/-- A call. -/
def step (dv : Devices δ) (fuel : Nat) (st : SharedCache δ) : SharedCall → Option (SharedCache δ)
  | .read device blockN buffer nblocks blockSize =>
      ended ((cachedRead dv fuel st device blockN buffer nblocks.toNat blockSize.toNat).map
        fun r => r.1)
  | .write device blockN data nblocks blockSize =>
      ended ((cachedWrite fuel st device blockN data nblocks.toNat blockSize.toNat).map
        fun r => r.1)
  | .flush dev => ended ((flush dv fuel st dev).map fun r => r.1)

/-- Calls, one after the other. -/
def run (dv : Devices δ) (fuel : Nat) (st : SharedCache δ) : List SharedCall → Option (SharedCache δ)
  | [] => some st
  | c :: cs => (step dv fuel st c).bind fun st => run dv fuel st cs

end SharedCache

end Metta.MettaFs
