/-
  Metta.ModuleLoader.Def — `load_module`: kernel/generic/module_loader.cpp.

  A module goes behind everything that is loaded: its sections, then on a page
  of their own the symbol table and the string table, each behind a copy of
  its section header, and at the end of the last page its descriptor.  The
  descriptors are a list through memory; the last one ends at
  `*d_last_available_address`.

  `bootinfo_t::use_memory`, which enters the module into the memory map, is
  left out: it changes the boot info page only, and its result is not used.
-/
import Metta.ModuleLoader.Elf

namespace Metta.ModuleLoader

open Metta.Machine

/-! ## §1. Alignment. -/

/-- `align_bytes`. -/
def alignBytes (addr size : Nat) : Nat := sub32 size (addr &&& sub32 size 1) &&& sub32 size 1

/-- `align_up`. -/
def alignUp (addr size : Nat) : Nat :=
  sub32 (add32 addr size) 1 &&& (wordSize - 1 - sub32 size 1)

/-- `PAGE_SIZE`. -/
def pageSize : Nat := 4096

/-- `page_align_up`. -/
def pageAlignUp (addr : Nat) : Nat := alignUp addr pageSize

/-! ## §2. Descriptors. -/

/-- `'MDUL'`. -/
def magic : Nat := 0x4c55444d

/-- `module_descriptor_t`. -/
structure ModuleDescriptor where
  name : Text
  previous : Nat
  loadBase : Nat
  loadedSize : Nat
  entryPoint : Nat
  symtabStart : Nat
  strtabStart : Nat

namespace ModuleDescriptor

/-- `sizeof(module_descriptor_t)`. -/
def size : Nat := 64

/-- What `copy_string` makes of the field for the name: a name of 32 bytes or more has no
NUL in it. -/
def nameField (name : Text) : List UInt8 :=
  name.terminated.take 32 ++ List.replicate (32 - name.terminated.length) 0

/-- The descriptor as it is in memory; `entry.name` is never set. -/
def bytes (d : ModuleDescriptor) : List UInt8 :=
  le32 magic ++ nameField d.name ++ le32 d.previous ++ le32 0 ++ le32 d.loadBase
    ++ le32 d.loadedSize ++ le32 d.entryPoint ++ le32 d.symtabStart ++ le32 d.strtabStart

end ModuleDescriptor

/-- The loop over the descriptors, from the one at `module` on. -/
def findDescriptor (m : Memory) (name : Text) : Nat → Nat → Except Halt (Option Nat)
  | 0, _ => .error .outOfFuel
  | fuel + 1, module =>
      if module = 0 then .ok none
      else if m.load32 module ≠ magic then .ok none
      else if cstringEquals m name (add32 module 4) then .ok (some module)
      else findDescriptor m name fuel (m.load32 (add32 module 36))

/-- `module_already_loaded`. -/
def moduleAlreadyLoaded (m : Memory) (last : Nat) (name : Text) (fuel : Nat) :
    Except Halt (Option Nat) :=
  findDescriptor m name fuel (sub32 last ModuleDescriptor.size)

/-- The loop of `loaded_module_names`, from the descriptor at `module` on: where the names
are. -/
def namesFrom (m : Memory) : Nat → Nat → Except Halt (List Nat)
  | 0, _ => .error .outOfFuel
  | fuel + 1, module =>
      if module = 0 then .ok []
      else if m.load32 module ≠ magic then .ok []
      else (namesFrom m fuel (m.load32 (add32 module 36))).map (add32 module 4 :: ·)

/-! ## §3. Sections. -/

/-- The first loop over the sections: their addresses, and the offset behind them. -/
def placeSections (sectionBase : Nat) : List SectionHeader → Nat → List SectionHeader × Nat
  | [], sectionOffset => ([], sectionOffset)
  | sh :: shs, sectionOffset =>
      if sh.isAlloc then
        let sectionOffset := if sh.vaddr = 0 then sectionOffset else add32 sectionOffset sh.vaddr
        let vaddr := add32 sectionBase sectionOffset
        let align := if sh.addralign > 1 then alignBytes vaddr sh.addralign else 0
        let rest := placeSections sectionBase shs (add32 (add32 sectionOffset align) sh.size)
        ({ sh with vaddr := add32 vaddr align } :: rest.1, rest.2)
      else
        let rest := placeSections sectionBase shs sectionOffset
        (sh :: rest.1, rest.2)

/-- The second loop, for a section: it is copied or cleared, and the end of the module is
adjusted. -/
def loadSection (start : Nat) (r : Memory × Nat) (sh : SectionHeader) : Memory × Nat :=
  if sh.isAlloc then
    let mem :=
      if sh.type = shtNobits then r.1.clear sh.vaddr sh.size
      else r.1.copy sh.vaddr (add32 start sh.offset) sh.size
    (mem, if add32 sh.vaddr sh.size > r.2 then add32 sh.vaddr sh.size else r.2)
  else r

/-! ## §4. Tables. -/

/-- A table is copied behind a copy of its section header.  Both headers get the new
offset: the copy from `load_base`, the one of the image from the start of the image. -/
def loadTable (loadBase i : Nat) (sh : SectionHeader) (r : Memory × Nat × ElfParser) :
    Memory × Nat × ElfParser :=
  let (mem, last, module) := r
  let header := last
  let last := add32 last 40
  let mem := (mem.write header sh.bytes).copy last (add32 module.start sh.offset) sh.size
  let mem := mem.store32 (add32 header 16) (sub32 last loadBase)
  let module := { module with
    sections := module.sections.set i { sh with offset := sub32 last module.start } }
  (mem, add32 last sh.size, module)

/-- The table in the section `index`, if there is one and it is wanted: where its header is
now, and what `loadTable` makes. -/
def loadTableIf (loadBase : Nat) (index : Option Nat) (wanted : SectionHeader → Bool)
    (r : Memory × Nat × ElfParser) : Nat × Memory × Nat × ElfParser :=
  match index with
  | none => (0, r)
  | some i =>
      match r.2.2.sections[i]? with
      | none => (0, r)
      | some sh => if wanted sh then (r.2.1, loadTable loadBase i sh r) else (0, r)

/-- The symbols of the copy get their addresses: `n` of them from `i` on, in the table
whose header is at `symtab`. -/
def updateSymbols (module : ElfParser) (loadBase symtab : Nat) :
    Nat → Nat → Memory → Except Halt Memory
  | 0, _, m => .ok m
  | n + 1, i, m =>
      let symbol := add32 (add32 loadBase (m.load32 (add32 symtab 16)))
        (i * m.load32 (add32 symtab 36))
      (if ElfParser.symbolType m symbol < sttSection then
        (module.vaddrOf (ElfParser.symbolShndx m symbol)).map fun vaddr =>
          m.store32 (add32 symbol 4) (add32 (m.load32 (add32 symbol 4)) vaddr)
      else .ok m).bind (updateSymbols module loadBase symtab n (i + 1))

/-! ## §5. Loading. -/

/-- What the loader works on: memory, `*d_first_used_address` and
`*d_last_available_address`. -/
structure Loader where
  mem : Memory
  firstUsedAddress : Nat
  lastAvailableAddress : Nat

/-- `loaded_module_names`. -/
def Loader.loadedModuleNames (s : Loader) (fuel : Nat) : Except Halt (List Nat) :=
  namesFrom s.mem fuel (sub32 s.lastAvailableAddress ModuleDescriptor.size)

/-- What a call leaves: the loader, the image with its headers as they are now, the
descriptor if the call has loaded the module, and the address that is returned. -/
structure Loaded where
  loader : Loader
  module : ElfParser
  descriptor : Option ModuleDescriptor
  value : Nat

/-- The tables of a module that is being loaded. -/
structure Tables where
  mem : Memory
  last : Nat
  module : ElfParser
  symtabStart : Nat
  strtabStart : Nat

/-- The symbol table, if it is not empty, and the string table. -/
def loadTables (loadBase : Nat) (mem : Memory) (last : Nat) (module : ElfParser) : Tables :=
  let module := module.sectionSymbolTable.sectionStringTable mem
  let last := if module.symtab ≠ none ∨ module.strtab ≠ none then pageAlignUp last else last
  let (symtabStart, r) := loadTableIf loadBase module.symtab (·.size > 0) (mem, last, module)
  let (strtabStart, mem, last, module) := loadTableIf loadBase module.strtab (fun _ => true) r
  ⟨mem, last, module, symtabStart, strtabStart⟩

/-- Where the memory of a module ends when its tables end at `prevAddress`: on a page
boundary, with room for the descriptor. -/
def endOfModule (prevAddress : Nat) : Nat :=
  let last := pageAlignUp prevAddress
  if sub32 last prevAddress < ModuleDescriptor.size then pageAlignUp (add32 last 1) else last

/-- `load_module` up to the tables: the sections are placed and loaded. -/
def Loader.loadParts (s : Loader) (module : ElfParser) : Tables :=
  let sectionBase := pageAlignUp s.lastAvailableAddress
  let (sections, sectionOffset) := placeSections sectionBase module.sections 0
  let (mem, last) := sections.foldl (loadSection module.start)
    (s.mem, add32 s.lastAvailableAddress sectionOffset)
  loadTables sectionBase mem last { module with sections := sections }

/-- `this_loaded_module`, when the parts are loaded and `mem` is the memory. -/
def Loader.descriptor (s : Loader) (name : Text) (module : ElfParser) (t : Tables) (mem : Memory) :
    ModuleDescriptor where
  name := name
  previous :=
    let previous := sub32 s.lastAvailableAddress ModuleDescriptor.size
    if mem.load32 previous = magic then previous else 0
  loadBase := pageAlignUp s.lastAvailableAddress
  loadedSize := sub32 (endOfModule t.last) (pageAlignUp s.lastAvailableAddress)
  entryPoint := add32 module.entry (pageAlignUp s.lastAvailableAddress)
  symtabStart := t.symtabStart
  strtabStart := t.strtabStart

/-- `load_module` for a module that is not loaded yet, up to the descriptor. -/
def Loader.install (s : Loader) (name : Text) (module : ElfParser) :
    Except Halt (Loader × ElfParser × ModuleDescriptor) :=
  if module.sections.length = 0 then .error .unknownFormat
  else
    let sectionBase := pageAlignUp s.lastAvailableAddress
    let firstUsed := if s.firstUsedAddress = 0 then sectionBase else s.firstUsedAddress
    let t := s.loadParts module
    (updateSymbols t.module sectionBase t.symtabStart
      t.module.symbolEntriesCount 0 t.mem).bind fun mem =>
    (t.module.relocateTo mem).bind fun mem =>
      let last := endOfModule t.last
      if sub32 last t.last < ModuleDescriptor.size then .error .assertion
      else
        let d := s.descriptor name module t mem
        .ok (⟨mem.write (sub32 last ModuleDescriptor.size) d.bytes, firstUsed, last⟩, t.module, d)

/-- `load_module`. -/
def Loader.loadModule (s : Loader) (name : Text) (module : ElfParser)
    (closureName : Option Text) (fuel : Nat) : Except Halt Loaded :=
  (moduleAlreadyLoaded s.mem s.lastAvailableAddress name fuel).bind fun
    | some d =>
        match closureName with
        | none => .error .unsupported
        | some closure =>
            (findSymbol s.mem (s.mem.load32 (add32 d 44)) (s.mem.load32 (add32 d 56))
              (s.mem.load32 (add32 d 60)) closure).map fun symbol => ⟨s, module, none, symbol⟩
    | none =>
        (s.install name module).bind fun (s', module', d) =>
          match closureName with
          | none => .ok ⟨s', module', some d, d.entryPoint⟩
          | some closure =>
              (findSymbol s'.mem d.loadBase d.symtabStart d.strtabStart closure).map fun symbol =>
                ⟨s', module', some d, symbol⟩

end Metta.ModuleLoader
