/-
  Metta.MettaFs.Superblock — superblock.h of mettafs, and `calc_checksum` of
  mkfs.cpp.

  A block of the file system starts with a packed header and is zero behind
  it.  The header has the checksum of the whole block, which is taken while
  the checksum itself is zero, and the place where the block should be.

    • `HeaderCommon`, `Superblock`, `BlockHeader` — the headers, with their bytes,
    • `calcChecksum`, `Verifies` — the checksum, and the check a reader makes,
    • `verifies_calcChecksum` — the one passes the other,
    • `calcChecksum_blockOf` — on headers, it fills in one field.

  SHA-256 is a parameter: any function to 32 bytes.
-/
import Metta.Machine.Bytes
import Metta.Machine.Packed

namespace Metta.MettaFs

open Metta.Machine

/-! ## §1. The headers. -/

/-- `btree_header_common_t`. -/
structure HeaderCommon where
  version : BitVec 32
  checksum : Vector UInt8 32
  fsid : Vector UInt8 16
  /-- which block this node is supposed to live in -/
  blockOffset : BitVec 64
  flags : BitVec 64
  deriving DecidableEq

/-- `btree_block_header_t`; no item follows it in a node that is empty. -/
structure BlockHeader where
  common : HeaderCommon
  level : BitVec 8
  generation : BitVec 64
  chunkTreeUuid : Vector UInt8 16
  owner : BitVec 64
  numItems : BitVec 32
  deriving DecidableEq

/-- `fs_superblock_t`. -/
structure Superblock where
  common : HeaderCommon
  magic : BitVec 64
  generation : BitVec 64
  /-- location of "root of roots" tree -/
  root : BitVec 64
  totalBytes : BitVec 64
  bytesUsed : BitVec 64
  sectorSize : BitVec 32
  nodeSize : BitVec 32
  leafSize : BitVec 32
  checksumType : BitVec 16
  rootLevel : BitVec 8
  label : Vector UInt8 256
  deriving DecidableEq

namespace Packed

open Metta.Machine.Packed

/-- The fields behind the checksum. -/
def headerRest : Packed (Vector UInt8 16 × BitVec 64 × BitVec 64) :=
  (bytes 16).pair ((word 8).pair (word 8))

def headerCommon : Packed HeaderCommon :=
  ((word 4).pair ((bytes 32).pair headerRest)).congr
    { toFun := fun t => ⟨t.1, t.2.1, t.2.2.1, t.2.2.2.1, t.2.2.2.2⟩
      invFun := fun h => (h.version, h.checksum, h.fsid, h.blockOffset, h.flags)
      left_inv := fun _ => rfl
      right_inv := fun _ => rfl }

def blockHeader : Packed BlockHeader :=
  (headerCommon.pair ((word 1).pair ((word 8).pair ((bytes 16).pair ((word 8).pair (word 4)))))).congr
    { toFun := fun t => ⟨t.1, t.2.1, t.2.2.1, t.2.2.2.1, t.2.2.2.2.1, t.2.2.2.2.2⟩
      invFun := fun h => (h.common, h.level, h.generation, h.chunkTreeUuid, h.owner, h.numItems)
      left_inv := fun _ => rfl
      right_inv := fun _ => rfl }

def superblock : Packed Superblock :=
  (headerCommon.pair ((word 8).pair ((word 8).pair ((word 8).pair ((word 8).pair ((word 8).pair
    ((word 4).pair ((word 4).pair ((word 4).pair ((word 2).pair ((word 1).pair
      (bytes 256)))))))))))).congr
    { toFun := fun t => ⟨t.1, t.2.1, t.2.2.1, t.2.2.2.1, t.2.2.2.2.1, t.2.2.2.2.2.1, t.2.2.2.2.2.2.1,
        t.2.2.2.2.2.2.2.1, t.2.2.2.2.2.2.2.2.1, t.2.2.2.2.2.2.2.2.2.1, t.2.2.2.2.2.2.2.2.2.2.1,
        t.2.2.2.2.2.2.2.2.2.2.2⟩
      invFun := fun s => (s.common, s.magic, s.generation, s.root, s.totalBytes, s.bytesUsed,
        s.sectorSize, s.nodeSize, s.leafSize, s.checksumType, s.rootLevel, s.label)
      left_inv := fun _ => rfl
      right_inv := fun _ => rfl }

/-- The sizes of superblock.h. -/
example : headerCommon.width = 68 ∧ blockHeader.width = 105 ∧ superblock.width = 379 := by decide

end Packed

/-! ## §2. Blocks and their checksums. -/

/-- `BLOCK_SIZE`. -/
def blockSize : Nat := 4096

/-- `CHECKSUM_TYPE_SHA256`. -/
def checksumTypeSha256 : BitVec 16 := 1

/-- `Magic64BE`: eight characters as a word, the first one lowest. -/
def magic64BE (h g f e d c b a : UInt8) : BitVec 64 :=
  let w := fun x : UInt8 => x.toBitVec.zeroExtend 64
  (((((((w a <<< 8 ||| w b) <<< 8 ||| w c) <<< 8 ||| w d) <<< 8 ||| w e) <<< 8 ||| w f) <<< 8
    ||| w g) <<< 8) ||| w h

/-- `SHA256`, of any bytes. -/
abbrev Sha256 := List UInt8 → Vector UInt8 32

/-- Where `checksum` is, in every header. -/
def checksumOffset : Nat := 4

/-- A node with its checksum zero. -/
def cleared (node : List UInt8) : List UInt8 := overwrite node checksumOffset (List.replicate 32 0)

/-- `calc_checksum` of the first `count` bytes of a node. -/
def calcChecksum (sha : Sha256) (node : List UInt8) (count : Nat) : List UInt8 :=
  overwrite (cleared node) checksumOffset (sha ((cleared node).take count)).toList

/-- What a reader checks: the checksum of the block, taken without it. -/
def Verifies (sha : Sha256) (block : List UInt8) : Prop :=
  (block.drop checksumOffset).take 32 = (sha (cleared block)).toList

instance (sha : Sha256) (block : List UInt8) : Decidable (Verifies sha block) :=
  inferInstanceAs (Decidable (_ = _))

/-- A header in a buffer that was zero. -/
def blockOf {α : Type} (p : Packed α) (x : α) : List UInt8 :=
  p.toBytes x ++ List.replicate (blockSize - p.width) 0

section Blocks

variable {α : Type} {p : Packed α} {x : α} {sha : Sha256} {node : List UInt8}

theorem length_blockOf (h : p.width ≤ blockSize) : (blockOf p x).length = blockSize := by
  rw [blockOf, List.length_append, p.length_toBytes, List.length_replicate]
  omega

/-- The header is read back from its block. -/
theorem ofBytes_blockOf : p.ofBytes ((blockOf p x).take p.width) = x := by
  rw [blockOf, List.take_left' (p.length_toBytes x), p.ofBytes_toBytes]

theorem length_cleared (hlen : node.length = blockSize) : (cleared node).length = blockSize := by
  rw [cleared, length_overwrite, hlen]
  rw [hlen]
  decide

/-- The checksum of a block is the only thing that `calc_checksum` changes. -/
theorem calcChecksum_eq (hlen : node.length = blockSize) :
    calcChecksum sha node blockSize
      = overwrite node checksumOffset (sha (cleared node)).toList := by
  have hoff : checksumOffset ≤ node.length := by
    rw [hlen]
    decide
  have hall : (cleared node).take blockSize = cleared node :=
    List.take_of_length_le (length_cleared hlen).le
  rw [calcChecksum, hall, cleared, overwrite_overwrite hoff]
  rw [Vector.length_toList, List.length_replicate]

/-- **What `calc_checksum` has filled in verifies.** -/
theorem verifies_calcChecksum (hlen : node.length = blockSize) :
    Verifies sha (calcChecksum sha node blockSize) := by
  have hoff : checksumOffset ≤ node.length := by
    rw [hlen]
    decide
  have hdigest : (sha (cleared node)).toList.length = 32 := Vector.length_toList
  have hread : ((overwrite node checksumOffset (sha (cleared node)).toList).drop
      checksumOffset).take (sha (cleared node)).toList.length = (sha (cleared node)).toList :=
    read_overwrite hoff
  rw [hdigest] at hread
  have hcleared : cleared (overwrite node checksumOffset (sha (cleared node)).toList)
      = cleared node := by
    rw [cleared, overwrite_overwrite hoff]
    · rfl
    · rw [hdigest, List.length_replicate]
  rw [calcChecksum_eq hlen, Verifies, hread, hcleared]

/-- The bytes before the checksum, and those behind it. -/
theorem headerCommon_toBytes (h : HeaderCommon) :
    Packed.headerCommon.toBytes h = (Packed.word 4).toBytes h.version ++
      (h.checksum.toList ++ Packed.headerRest.toBytes (h.fsid, h.blockOffset, h.flags)) := rfl

/-- Writing over the checksum of a block fills in the field of its header. -/
theorem overwrite_header (h : HeaderCommon) (digest : Vector UInt8 32) (rest : List UInt8) :
    overwrite (Packed.headerCommon.toBytes h ++ rest) checksumOffset digest.toList
      = Packed.headerCommon.toBytes { h with checksum := digest } ++ rest := by
  rw [headerCommon_toBytes, headerCommon_toBytes, List.append_assoc, List.append_assoc,
    List.append_assoc, List.append_assoc]
  apply overwrite_mid
  · exact (Packed.word 4).length_toBytes _
  · rw [Vector.length_toList, Vector.length_toList]

end Blocks

/-- The superblock with a checksum. -/
def Superblock.withChecksum (s : Superblock) (digest : Vector UInt8 32) : Superblock :=
  { s with common := { s.common with checksum := digest } }

/-- The header of a node with a checksum. -/
def BlockHeader.withChecksum (s : BlockHeader) (digest : Vector UInt8 32) : BlockHeader :=
  { s with common := { s.common with checksum := digest } }

/-- On a superblock, the bytes that are written over are its field. -/
theorem overwrite_superblock (s : Superblock) (digest : Vector UInt8 32) :
    overwrite (blockOf Packed.superblock s) checksumOffset digest.toList
      = blockOf Packed.superblock (s.withChecksum digest) := by
  unfold blockOf
  show overwrite ((Packed.headerCommon.toBytes s.common ++ _) ++ _) _ _
    = (Packed.headerCommon.toBytes { s.common with checksum := digest } ++ _) ++ _
  rw [List.append_assoc, List.append_assoc]
  exact overwrite_header _ _ _

/-- On the header of a node, likewise. -/
theorem overwrite_blockHeader (s : BlockHeader) (digest : Vector UInt8 32) :
    overwrite (blockOf Packed.blockHeader s) checksumOffset digest.toList
      = blockOf Packed.blockHeader (s.withChecksum digest) := by
  unfold blockOf
  show overwrite ((Packed.headerCommon.toBytes s.common ++ _) ++ _) _ _
    = (Packed.headerCommon.toBytes { s.common with checksum := digest } ++ _) ++ _
  rw [List.append_assoc, List.append_assoc]
  exact overwrite_header _ _ _

/-- One character more of a magic number. -/
theorem toNat_shift_or {v : BitVec 64} (x : UInt8) (hv : v.toNat < 2 ^ 56) :
    (v <<< 8 ||| x.toBitVec.zeroExtend 64).toNat = 256 * v.toNat + x.toNat := by
  have hx : x.toNat < 2 ^ 8 := x.toNat_lt
  have hshift : (v <<< 8).toNat = v.toNat <<< 8 := by
    rw [BitVec.toNat_shiftLeft, Nat.mod_eq_of_lt]
    rw [Nat.shiftLeft_eq]
    omega
  have hlow : (x.toBitVec.zeroExtend 64).toNat = x.toNat := by
    show (x.toBitVec.setWidth 64).toNat = _
    rw [BitVec.toNat_setWidth, Nat.mod_eq_of_lt]
    · rfl
    · show x.toNat < 2 ^ 64
      omega
  rw [BitVec.toNat_or, hshift, hlow, ← Nat.shiftLeft_add_eq_or_of_lt hx, Nat.shiftLeft_eq]
  omega

/-- Characters one after the other, the last one lowest. -/
theorem toNat_foldl_shift_or (xs : List UInt8) (hlen : xs.length ≤ 8) :
    (xs.foldl (fun (v : BitVec 64) (x : UInt8) => v <<< 8 ||| x.toBitVec.zeroExtend 64)
      0#64).toNat = leValue xs.reverse := by
  induction xs using List.reverseRecOn with
  | nil => rfl
  | append_singleton ys x ih =>
      rw [List.length_append, List.length_singleton] at hlen
      have hys := ih (by omega)
      have hlt := leValue_lt ys.reverse
      rw [List.length_reverse] at hlt
      have hpow : 256 ^ ys.length ≤ 256 ^ 7 := Nat.pow_le_pow_right (by decide) (by omega)
      rw [List.foldl_append, List.foldl_cons, List.foldl_nil, toNat_shift_or x (by omega), hys,
        List.reverse_append, List.reverse_singleton, List.singleton_append, leValue, Nat.add_comm]

/-- The characters of a magic number stand in the block in their order. -/
theorem toBytes_magic64BE (h g f e d c b a : UInt8) :
    (Packed.word 8).toBytes (magic64BE h g f e d c b a) = [h, g, f, e, d, c, b, a] := by
  have hfold : magic64BE h g f e d c b a = [a, b, c, d, e, f, g, h].foldl
      (fun (v : BitVec 64) (x : UInt8) => v <<< 8 ||| x.toBitVec.zeroExtend 64) 0#64 := by
    simp only [magic64BE, List.foldl_cons, List.foldl_nil, BitVec.zero_shiftLeft, BitVec.zero_or]
  have hword : magic64BE h g f e d c b a
      = (Packed.word 8).ofBytes [h, g, f, e, d, c, b, a] := by
    apply BitVec.eq_of_toNat_eq
    have hlt : leValue [h, g, f, e, d, c, b, a] < 256 ^ 8 := leValue_lt _
    have hvalue := toNat_foldl_shift_or [a, b, c, d, e, f, g, h] le_rfl
    rw [← hfold] at hvalue
    show _ = (BitVec.ofNat 64 (leValue [h, g, f, e, d, c, b, a])).toNat
    rw [BitVec.toNat_ofNat, hvalue, Nat.mod_eq_of_lt]
    · rfl
    · exact lt_of_lt_of_eq hlt (by norm_num)
  rw [hword]
  exact (Packed.word 8).toBytes_ofBytes _ rfl

end Metta.MettaFs
