/-
  Metta.Bootinfo.HighMem — looking for memory in the boot memory map, from
  kernel/arch/shared/bootinfo.cpp and runtime/range_list.h.

  The entries have 64 bits and the ranges 32: what is put into a range loses
  its upper half, and so does the top of memory.
-/
import Metta.Bootinfo.UseMemory

namespace Metta.Bootinfo.Page

open Metta.Machine

/-- `mmap_entry_t::acpi_reclaimable`. -/
def acpiReclaimable : Nat := 3

/-- The entry moves the top of memory. -/
def raiseTop (top : Nat) (e : MmapEntry) : Nat :=
  if e.isFree || e.type == acpiReclaimable then
    if (e.baseAddr + e.length) % 2 ^ 64 > top then (e.baseAddr + e.length) % 2 ^ 64 % wordSize
    else top
  else top

/-- `find_usable_physical_memory_top`. -/
def findUsablePhysicalMemoryTop (b : Page) (fuel : Nat) : Option Nat :=
  (b.mmapEntries fuel).map fun es => es.foldl raiseTop 0

/-- A `range_t` without the entry `f`.  The end of an entry is its last address, and that
of a range is the address behind it. -/
def cutRange (range : Extent) (f : MmapEntry) : Extent :=
  let rangeEnd := add32 range.start range.length
  if range.length = 0 then range
  else if f.isFree then range
  else if f.end < range.start ∨ f.baseAddr > rangeEnd then range
  else if f.end > range.start then
    if f.baseAddr > rangeEnd then range
    else if f.end > rangeEnd then
      if f.baseAddr > range.start then ⟨range.start, (f.baseAddr - range.start) % wordSize⟩
      else ⟨0, 0⟩
    else ⟨f.end % wordSize, (rangeEnd - f.end) % wordSize⟩
  else range

/-- `LOWER_BOUND`, `1*MB`; an `MB` has a thousand `KB` of a thousand. -/
def lowerBound : Nat := 1000000

/-- `find_highmem_range_of_at_least`; the last range that is large enough stays. -/
def findHighmemRangeOfAtLeast (b : Page) (bytes fuel : Nat) : Option Nat :=
  (b.mmapEntries fuel).map fun es =>
    es.foldl (fun firstRange e =>
      if !e.isFree || e.baseAddr < lowerBound then firstRange
      else
        let range := es.foldl cutRange ⟨e.baseAddr % wordSize, e.length % wordSize⟩
        if range.length > bytes then range.start else firstRange) 0xffffffff

end Metta.Bootinfo.Page
