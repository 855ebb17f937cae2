/-
  Metta.MettaFs.StorageFile — block_device.cpp and block_device_mapper.h, down to
  the bytes of the files.

  A device keeps its blocks in a file, at the number of the block times the block
  size of the device.  What the block size of a request is, the device does not
  know: it takes any number of whole blocks, and refuses anything else without a
  word to the mapper.

    • `StorageFile` — the stream of a device,
    • `readBlock`, `writeBlock` — `block_device_t`,
    • `fileDevices` — the devices behind a `block_device_mapper_t`.
-/
import Metta.Machine.Bytes
import Metta.MettaFs.Devices

namespace Metta.MettaFs

open Metta.Machine

/-! ## §1. The file of a device. -/

/-- `storageFile`: the bytes of the file, and whether a call on the stream has failed. -/
structure StorageFile where
  bytes : Memory
  failed : Bool

namespace StorageFile

/-- `seekp` and `write`.  A stream that has failed does nothing; it fails at a position that is
negative as a `streamoff` and at data that ends behind the last position there is. -/
def writeAt (f : StorageFile) (pos : Nat) (buffer : List UInt8) : StorageFile :=
  if f.failed then f
  else if pos + buffer.length < 2 ^ 63 then { f with bytes := f.bytes.write pos buffer }
  else { f with failed := true }

/-- `seekg` and `read`.  The stream is open for output only, so there is nothing to read: the buffer
stays as it is, and the stream fails, where there is a byte to read or no such position. -/
def readAt (f : StorageFile) (pos bytes : Nat) (buffer : List UInt8) : List UInt8 × StorageFile :=
  (buffer, { f with failed := f.failed || decide (2 ^ 63 ≤ pos) || bytes != 0 })

/-- `read_block`, on a device with that block size: what the buffer holds then, and the number of
bytes. -/
def readBlock (blockSize : Nat) (f : StorageFile) (block bytes : Nat) (buffer : List UInt8) :
    (List UInt8 × Nat) × StorageFile :=
  if bytes % blockSize ≠ 0 then ((buffer, 0), f)
  else
    let (buffer, f) := f.readAt (block * blockSize % 2 ^ 64) bytes buffer
    ((buffer, bytes), f)

/-- `write_block`. -/
def writeBlock (blockSize : Nat) (f : StorageFile) (block : Nat) (buffer : List UInt8) :
    StorageFile :=
  if buffer.length % blockSize ≠ 0 then f else f.writeAt (block * blockSize % 2 ^ 64) buffer

variable {f : StorageFile} {blockSize block : Nat} {buffer : List UInt8}

/-- Blocks that end below the last position are written to their place. -/
theorem writeBlock_eq (hgood : f.failed = false) (hwhole : buffer.length % blockSize = 0)
    (hfits : block * blockSize + buffer.length < 2 ^ 63) :
    f.writeBlock blockSize block buffer =
      { f with bytes := f.bytes.write (block * blockSize) buffer } := by
  have hpos : block * blockSize % 2 ^ 64 = block * blockSize := Nat.mod_eq_of_lt (by omega)
  unfold writeBlock writeAt
  rw [if_neg (not_not_intro hwhole), hpos, hgood, if_neg Bool.false_ne_true, if_pos hfits]

/-- **A read leaves the buffer as it is**, and what is in the file. -/
theorem readBlock_keeps (bytes : Nat) :
    (f.readBlock blockSize block bytes buffer).1.1 = buffer ∧
      (f.readBlock blockSize block bytes buffer).2.bytes = f.bytes := by
  unfold readBlock
  split
  · exact ⟨rfl, rfl⟩
  · exact ⟨rfl, rfl⟩

/-- Anything but whole blocks is refused. -/
theorem writeBlock_refused (hwhole : buffer.length % blockSize ≠ 0) :
    f.writeBlock blockSize block buffer = f := by
  unfold writeBlock
  rw [if_pos hwhole]

end StorageFile

/-! ## §2. The devices of a mapper. -/

/-- The devices of a `block_device_mapper_t`, by their block sizes.  The size is zero for a number
that no device has; a device with that block size is none either, since `bytes % blockSize` traps. -/
def fileDevices (sizes : Nat → Nat) : Devices (Nat → StorageFile) where
  mapped dev := sizes dev != 0
  readBlock files dev block bytes buffer :=
    let (r, f) := (files dev).readBlock (sizes dev) block bytes buffer
    (r, Function.update files dev f)
  writeBlock files dev block buffer :=
    Function.update files dev ((files dev).writeBlock (sizes dev) block buffer)

end Metta.MettaFs
