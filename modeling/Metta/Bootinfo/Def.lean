/-
  Metta.Bootinfo.Def — the boot info page of kernel/arch/shared/bootinfo.cpp,
  kernel/arch/shared/bootinfo.h and kernel/platform/shared/multiboot.h.

  The page starts with a header of four words, here a Lean record, and goes on
  with records in memory: a 16-bit tag, a 16-bit size and the fields.  Fields
  of 64 bits are aligned to four bytes, as the x86 ABI has it, so that a
  memory map record can be read as a `multiboot_t::mmap_entry_t`.

  Every loop over records has fuel and answers `none` when it runs out.  What
  goes to the logger is left out.
-/
import Metta.Machine.Memory
import Metta.Machine.Records

namespace Metta.Bootinfo

open Metta.Machine

/-! ## §1. The page. -/

/-- `PAGE_SIZE`. -/
def pageSize : Nat := 4096

/-- `bootinfo_t::ADDRESS`. -/
def address : Nat := 0x8000

/-- `this + 1`: the first record. -/
def firstRecord : Nat := address + 16

/-- `bootinfo_t`.  `free` is a pointer into `mem`. -/
structure Page where
  free : Nat
  firstModuleAddress : Nat
  lastAvailableModuleAddress : Nat
  mem : Memory

/-- `bootinfo_t(true)`. -/
def create (mem : Memory) : Page := ⟨firstRecord, 0, 0, mem⟩

namespace Page

/-- `size`. -/
def size (b : Page) : Nat := sub32 b.free address

/-- `will_overflow`. -/
def willOverflow (b : Page) (addSize : Nat) : Bool := add32 b.size addSize > pageSize

end Page

/-! ## §2. Strings and records. -/

/-- A C string, without its NUL.  It shares the address space with the page and the
program, which are more than a page. -/
structure CString where
  bytes : List UInt8
  noNul : ∀ b ∈ bytes, b ≠ 0
  fits : bytes.length + 2 * pageSize ≤ wordSize

/-- What is appended to the page. -/
inductive Record where
  /-- `bootrec_module`; the addresses are those of a `modinfo_t`. -/
  | module (number modStart modEnd : BitVec 32) (str : CString)
  /-- `bootrec_memory_map`. -/
  | mmap (start length : BitVec 64) (type : BitVec 32)
  /-- `bootrec_virtual_mapping`. -/
  | vmap (vstart pstart size : BitVec 32)
  /-- `bootrec_command_line`. -/
  | cmdline (str : CString)

/-- `bootrec_tag_e`. -/
def Record.tag : Record → Nat
  | module .. => 1
  | mmap .. => 2
  | vmap .. => 3
  | cmdline _ => 4

/-- The size of a record: its struct, and a string with its NUL. -/
def Record.size : Record → Nat
  | module _ _ _ str => add32 (add32 28 str.bytes.length) 1
  | mmap .. => 24
  | vmap .. => 24
  | cmdline str => add32 (add32 8 str.bytes.length) 1

/-- `memutils::copy_string`. -/
def copyString (m : Memory) (dest : Nat) (str : CString) : Memory :=
  m.write dest (str.bytes ++ [0])

/-! ## §3. Appending. -/

namespace Page

/-- The fields that a record has after its tag and size. -/
def putFields (m : Memory) (a : Nat) : Record → Memory
  | .module number modStart modEnd str =>
      let m := m.store32 (a + 4) number.toNat
      let m := m.store64 (a + 8) modStart.toNat
      let m := m.store64 (a + 16) modEnd.toNat
      let m := m.store32 (a + 24) (a + 28)
      copyString m (a + 28) str
  | .mmap start length type =>
      let m := m.store64 (a + 4) start.toNat
      let m := m.store64 (a + 12) length.toNat
      m.store32 (a + 20) type.toNat
  | .vmap vstart pstart size =>
      let m := m.store32 (a + 4) vstart.toNat
      let m := m.store32 (a + 8) pstart.toNat
      let m := m.store32 (a + 12) (size >>> 12).toNat
      let m := m.store32 (a + 16) 12
      m.store32 (a + 20) 0
  | .cmdline str =>
      let m := m.store32 (a + 4) (a + 8)
      copyString m (a + 8) str

/-- `append_module` moves the end of the modules. -/
def noteModule (b : Page) : Record → Page
  | .module _ _ modEnd _ =>
      if modEnd.toNat > b.lastAvailableModuleAddress then
        { b with lastAvailableModuleAddress := modEnd.toNat }
      else b
  | _ => b

/-- What the four `append` calls do with an argument that is not null. -/
def append (b : Page) (r : Record) : Bool × Page :=
  let size := r.size
  if b.willOverflow size then (false, b)
  else
    let b := b.noteModule r
    let m := b.mem.store16 b.free r.tag
    let m := m.store16 (b.free + 2) (size % 2 ^ 16)
    (true, { b with mem := putFields m b.free r, free := b.free + size })

/-- `append_module`. -/
def appendModule (b : Page) (number modStart modEnd : BitVec 32) (str : CString) : Bool × Page :=
  b.append (.module number modStart modEnd str)

/-- `append_mmap`. -/
def appendMmap (b : Page) (start length : BitVec 64) (type : BitVec 32) : Bool × Page :=
  b.append (.mmap start length type)

/-- `append_vmap`. -/
def appendVmap (b : Page) (vstart pstart size : BitVec 32) : Bool × Page :=
  b.append (.vmap vstart pstart size)

/-- `append_cmdline`. -/
def appendCmdline (b : Page) (str : CString) : Bool × Page := b.append (.cmdline str)

/-! ## §4. Reading. -/

/-- The size that is stored in the record at `a`. -/
def sizeAt (b : Page) (a : Nat) : Nat := b.mem.load16 (a + 2)

/-- The tag of the record at `a`. -/
def tagAt (b : Page) (a : Nat) : Nat := b.mem.load16 a

/-- `multiboot_t::mmap_entry_t`. -/
structure MmapEntry where
  baseAddr : Nat
  length : Nat
  type : Nat
  deriving DecidableEq, Repr

/-- `memory_v1::mapping`. -/
structure Mapping where
  virt : Nat
  phys : Nat
  nframes : Nat
  frameWidth : Nat
  mode : Nat
  deriving DecidableEq, Repr

/-- `mmap_iterator::operator *`: the record read as a packed `mmap_entry_t`. -/
def mmapEntryAt (b : Page) (a : Nat) : MmapEntry :=
  ⟨b.mem.load64 (a + 4), b.mem.load64 (a + 12), b.mem.load32 (a + 20)⟩

/-- `vmap_iterator::operator *`. -/
def mappingAt (b : Page) (a : Nat) : Mapping :=
  ⟨b.mem.load32 (a + 4), b.mem.load32 (a + 8), b.mem.load32 (a + 12), b.mem.load32 (a + 16),
    b.mem.load32 (a + 20)⟩

/-- The records with a tag, as the iterator from `begin` to `end` goes through them;
`end` of the iterator is `free` at `begin`. -/
def recordsWith (b : Page) (tag fuel : Nat) : Option (List Nat) :=
  let hit a := b.tagAt a == tag
  (scan b.sizeAt b.free hit fuel firstRecord).bind fun it =>
    gather b.sizeAt b.free hit fuel fuel it

/-- `mmap_begin` .. `mmap_end`. -/
def mmapEntries (b : Page) (fuel : Nat) : Option (List MmapEntry) :=
  (b.recordsWith 2 fuel).map fun as => as.map b.mmapEntryAt

/-- `vmap_begin` .. `vmap_end`. -/
def mappings (b : Page) (fuel : Nat) : Option (List Mapping) :=
  (b.recordsWith 3 fuel).map fun as => as.map b.mappingAt

/-- `get_module`: the addresses, cut to 32 bits, and where the name is. -/
def getModule (b : Page) (number : BitVec 32) (fuel : Nat) : Option (Option (Nat × Nat × Nat)) :=
  let hit a := b.tagAt a == 1 && b.mem.load32 (a + 4) == number.toNat
  (scan b.sizeAt b.free hit fuel firstRecord).map fun found => found.map fun a =>
    (b.mem.load64 (a + 8) % wordSize, b.mem.load64 (a + 16) % wordSize, b.mem.load32 (a + 24))

/-- `get_cmdline`: where the string is. -/
def getCmdline (b : Page) (fuel : Nat) : Option (Option Nat) :=
  (scan b.sizeAt b.free (fun a => b.tagAt a == 4) fuel firstRecord).map fun found =>
    found.map fun a => b.mem.load32 (a + 4)

end Page

end Metta.Bootinfo
