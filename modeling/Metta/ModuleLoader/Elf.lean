/-
  Metta.ModuleLoader.Elf — ELF images: elf.h, elf_parser.cpp and
  symbol_table_finder.h of kernel/generic.

  The table of section headers is a list that is kept beside the memory: the
  loader changes headers in it, and nothing it writes to memory falls on it.
  Everything else of an image is read from memory, at its offset from `start`.

  What goes to the console is left out.  A run that stops in a panic, in an
  assertion or at a null pointer has no result but the reason.
-/
import Metta.Machine.Bytes
import Metta.Machine.Outcome

namespace Metta.ModuleLoader

open Metta.Machine

/-- Why a run stops. -/
inductive Halt where
  | unsupported
  | unknownFormat
  | undefinedSymbols
  | sectionNames
  | assertion
  | nullPointer
  | divideError
  | outOfFuel
  deriving DecidableEq

/-! ## §1. Section headers. -/

/-- `section_header_t`. -/
structure SectionHeader where
  name : Nat
  type : Nat
  flags : Nat
  vaddr : Nat
  offset : Nat
  size : Nat
  link : Nat
  info : Nat
  addralign : Nat
  entsize : Nat
  deriving DecidableEq

namespace SectionHeader

/-- `flags & SHF_ALLOC`. -/
def isAlloc (sh : SectionHeader) : Bool := sh.flags &&& 2 != 0

/-- The header as it is in memory. -/
def bytes (sh : SectionHeader) : List UInt8 :=
  [sh.name, sh.type, sh.flags, sh.vaddr, sh.offset, sh.size, sh.link, sh.info, sh.addralign,
    sh.entsize].flatMap le32

end SectionHeader

/-- `SHT_SYMTAB`. -/
def shtSymtab : Nat := 2

/-- `SHT_NOBITS`. -/
def shtNobits : Nat := 8

/-- `SHT_REL`. -/
def shtRel : Nat := 9

/-- `STT_SECTION`. -/
def sttSection : Nat := 3

/-! ## §2. The parser. -/

/-- `elf_parser_t`: where the image is, the fields of its header that are used, the section
headers, and the two sections that are looked up once only. -/
structure ElfParser where
  start : Nat
  entry : Nat
  shstrndx : Nat
  sections : List SectionHeader
  symtab : Option Nat
  strtab : Option Nat

namespace ElfParser

/-- `".strtab"`. -/
def strtabName : Text := ⟨[46, 115, 116, 114, 116, 97, 98], noNul_of_all rfl⟩

/-- `section_header_by_type`. -/
def sectionHeaderByType (elf : ElfParser) (type : Nat) : Option Nat :=
  elf.sections.findIdx? (·.type == type)

/-- `section_shstring_table`. -/
def sectionShstringTable (elf : ElfParser) : Option SectionHeader :=
  if elf.shstrndx = 0 then none else elf.sections[elf.shstrndx]?

/-- `strtab_pointer`. -/
def strtabPointer (elf : ElfParser) (strtab : SectionHeader) (nameOffset : Nat) : Nat :=
  add32 (add32 elf.start strtab.offset) nameOffset

/-- `section_header`, by name. -/
def sectionHeaderByName (elf : ElfParser) (m : Memory) (name : Text) : Option Nat :=
  match elf.sectionShstringTable with
  | none => none
  | some shstrtab =>
      elf.sections.findIdx? fun s => cstringEquals m name (elf.strtabPointer shstrtab s.name)

/-- `section_symbol_table`: the parser knows it afterwards. -/
def sectionSymbolTable (elf : ElfParser) : ElfParser :=
  if elf.symtab = none then { elf with symtab := elf.sectionHeaderByType shtSymtab } else elf

/-- `section_string_table`: the parser knows it afterwards. -/
def sectionStringTable (elf : ElfParser) (m : Memory) : ElfParser :=
  if elf.strtab = none then { elf with strtab := elf.sectionHeaderByName m strtabName } else elf

/-- The header of the symbol table. -/
def symtabHeader (elf : ElfParser) : Option SectionHeader := elf.symtab.bind (elf.sections[·]?)

/-- The header of the string table. -/
def strtabHeader (elf : ElfParser) : Option SectionHeader := elf.strtab.bind (elf.sections[·]?)

/-- `symbol_entries_count`. -/
def symbolEntriesCount (elf : ElfParser) : Nat :=
  match elf.symtabHeader with
  | none => 0
  | some symtab => symtab.size / symtab.entsize

/-- `section_header(index)->vaddr`. -/
def vaddrOf (elf : ElfParser) (index : Nat) : Except Halt Nat :=
  match elf.sections[index]? with
  | none => .error .nullPointer
  | some sh => .ok sh.vaddr

/-! ## §3. Relocation. -/

/-- `ELF32_ST_TYPE` of the symbol at `sym`. -/
def symbolType (m : Memory) (sym : Nat) : Nat := (m.byte (add32 sym 12)).toNat % 16

/-- `shndx` of the symbol at `sym`. -/
def symbolShndx (m : Memory) (sym : Nat) : Nat := m.load16 (add32 sym 14)

/-- What a relocation of the type makes of `S`, `A` and `P`; a type that is not known
gives `0xdeadbeef`. -/
def relocated (type s a p : Nat) : Nat :=
  match type with
  | 0 => a
  | 1 => add32 s a
  | 2 => sub32 (add32 s a) p
  | _ => 0xdeadbeef

/-- `apply_relocation`, for the `rel_t` and the `symbol_t` at these addresses. -/
def applyRelocation (elf : ElfParser) (target : SectionHeader) (rel sym : Nat) (m : Memory) :
    Except Halt Memory :=
  let p := add32 target.vaddr (m.load32 rel)
  let a := m.load32 p
  if symbolType m sym = 0 ∧ symbolShndx m sym = 0 then .error .undefinedSymbols
  else
    (if symbolType m sym = sttSection then elf.vaddrOf (symbolShndx m sym)
      else .ok (m.load32 (add32 sym 4))).map fun s =>
        m.store32 p (relocated (m.load32 (add32 rel 4) % 256) s a p)

/-- The loop over the entries of a relocation section, `n` of them from `j` on. -/
def applyRelocations (elf : ElfParser) (target : SectionHeader) (rels symbols : Nat) :
    Nat → Nat → Memory → Except Halt Memory
  | 0, _, m => .ok m
  | n + 1, j, m =>
      let rel := add32 rels (8 * j)
      let sym := add32 symbols (16 * (m.load32 (add32 rel 4) / 256))
      (elf.applyRelocation target rel sym m).bind (elf.applyRelocations target rels symbols n (j + 1))

/-- What `relocate_to` does for a section. -/
def relocateSection (elf : ElfParser) (sh : SectionHeader) (m : Memory) : Except Halt Memory :=
  if sh.type = shtRel then
    match elf.sections[sh.info]? with
    | none => .error .nullPointer
    | some target =>
        if !target.isAlloc then .ok m
        else if sh.entsize ≠ 8 then .error .assertion
        else
          match elf.sections[sh.link]? with
          | none => .ok m
          | some symtab =>
              let symbols := add32 elf.start symtab.offset
              if symbols = 0 then .ok m
              else elf.applyRelocations target (add32 elf.start sh.offset) symbols (sh.size / 8) 0 m
  else .ok m

/-- `relocate_to`; without names for the sections it does nothing. -/
def relocateTo (elf : ElfParser) (m : Memory) : Except Halt Memory :=
  match elf.sectionShstringTable with
  | none => .ok m
  | some _ => elf.sections.foldl (fun r sh => r.bind (elf.relocateSection sh)) (.ok m)

end ElfParser

/-! ## §4. Finding symbols. -/

/-- The loop of `find_symbol`, over `n` symbols from `i` on. -/
def findSymbolFrom (m : Memory) (base symtab strtab : Nat) (str : Text) :
    Nat → Nat → Except Halt Nat
  | 0, _ => .ok 0
  | n + 1, i =>
      let symbol := add32 (add32 base (m.load32 (add32 symtab 16)))
        (i * m.load32 (add32 symtab 36))
      let c := add32 (add32 base (m.load32 (add32 strtab 16))) (m.load32 symbol)
      if cstringEquals m str c then
        if ElfParser.symbolType m symbol = sttSection then .error .sectionNames
        else .ok (m.load32 (add32 symbol 4))
      else findSymbolFrom m base symtab strtab str n (i + 1)

/-- `symbol_table_finder_t::find_symbol`, with the section headers at `symtab` and
`strtab`. -/
def findSymbol (m : Memory) (base symtab strtab : Nat) (str : Text) : Except Halt Nat :=
  if symtab = 0 ∨ strtab = 0 then .error .assertion
  else if m.load32 (add32 symtab 36) = 0 then .error .divideError
  else findSymbolFrom m base symtab strtab str
    (m.load32 (add32 symtab 20) / m.load32 (add32 symtab 36)) 0

end Metta.ModuleLoader
