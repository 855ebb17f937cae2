/-
  Metta.ModuleLoader.Image — what a relocatable image is.

  An image is `length` bytes of memory from `start` on.  Its symbols and its
  relocations are read from there; where things go in memory and what the
  loader makes of them is not said here.

    • `Symbol`, `Relocation` — what the tables of an image hold,
    • `WellFormed` — everything that the loader reads is in the image, and
      every relocation is in the section that it is for,
    • `Relocatable` — the symbols are defined, and the relocations are of the
      three types and apart.
-/
import Metta.ModuleLoader.Layout

namespace Metta.ModuleLoader

open Metta.Machine

/-! ## §1. Symbols and relocations. -/

/-- `SHT_STRTAB`. -/
def shtStrtab : Nat := 3

/-- A symbol of a table. -/
structure Symbol where
  name : Nat
  value : Nat
  type : Nat
  shndx : Nat
  deriving DecidableEq

/-- The symbol at an address. -/
def symbolAt (m : Memory) (a : Nat) : Symbol :=
  ⟨m.load32 a, m.load32 (a + 4), (m.byte (a + 12)).toNat % 16, m.load16 (a + 14)⟩

theorem symbolAt_shift {m m' : Memory} {a a' : Nat}
    (h : ∀ k < 16, m'.byte (a' + k) = m.byte (a + k)) : symbolAt m' a' = symbolAt m a := by
  have hword : ∀ i, i + 4 ≤ 16 → m'.load32 (a' + i) = m.load32 (a + i) := fun i hi =>
    Memory.load32_shift fun k hk => by rw [Nat.add_assoc, h _ (by omega), Nat.add_assoc]
  have hhalf : m'.load16 (a' + 14) = m.load16 (a + 14) :=
    Memory.load16_shift fun k hk => by rw [Nat.add_assoc, h _ (by omega), Nat.add_assoc]
  have hname := hword 0 (by omega)
  rw [symbolAt, symbolAt, hword 4 (by omega), hhalf, h 12 (by omega)]
  rw [Nat.add_zero, Nat.add_zero] at hname
  rw [hname]

theorem symbolAt_congr {m m' : Memory} {a : Nat}
    (h : ∀ x, a ≤ x → x < a + 16 → m'.byte x = m.byte x) : symbolAt m' a = symbolAt m a :=
  symbolAt_shift fun k hk => h (a + k) (by omega) (by omega)

/-- A relocation: the word at `offset` in the section `target`. -/
structure Relocation where
  target : Nat
  offset : Nat
  type : Nat
  symbol : Nat
  deriving DecidableEq

/-- The relocation at an address. -/
def relocationAt (m : Memory) (target a : Nat) : Relocation :=
  ⟨target, m.load32 a, m.load32 (a + 4) % 256, m.load32 (a + 4) / 256⟩

namespace ElfParser

/-- The header of the symbol table. -/
def symbolTable (elf : ElfParser) : Option SectionHeader :=
  (elf.sectionHeaderByType shtSymtab).bind (elf.sections[·]?)

/-- The number of symbols. -/
def symbolCount (elf : ElfParser) : Nat := elf.symbolTable.elim 0 (·.size / 16)

/-- A symbol of the image. -/
def symbol (elf : ElfParser) (m : Memory) (i : Nat) : Symbol :=
  symbolAt m (elf.start + elf.symbolTable.elim 0 (·.offset) + 16 * i)

/-- The relocation section is for a section that gets memory. -/
def relocates (elf : ElfParser) (sh : SectionHeader) : Bool :=
  sh.type = shtRel ∧ (elf.sections[sh.info]?).elim false (·.isAlloc)

/-- The relocations of a section. -/
def relocationsOf (elf : ElfParser) (m : Memory) (sh : SectionHeader) : List Relocation :=
  if elf.relocates sh then
    (List.range (sh.size / 8)).map fun j => relocationAt m sh.info (elf.start + sh.offset + 8 * j)
  else []

/-- All relocations of sections that get memory. -/
def relocations (elf : ElfParser) (m : Memory) : List Relocation :=
  elf.sections.flatMap (elf.relocationsOf m)

/-- What the file has for the byte `k` of a section. -/
def fileByte (elf : ElfParser) (m : Memory) (sh : SectionHeader) (k : Nat) : UInt8 :=
  if sh.type = shtNobits then 0 else m.byte (elf.start + sh.offset + k)

/-- What the file has for the word at `k` in a section. -/
def fileWord (elf : ElfParser) (m : Memory) (sh : SectionHeader) (k : Nat) : Nat :=
  if sh.type = shtNobits then 0 else m.load32 (elf.start + sh.offset + k)

/-- The address of a section. -/
def vaddrAt (elf : ElfParser) (i : Nat) : Nat := (elf.sections[i]?).elim 0 (·.vaddr)

/-- The address of a symbol of the file when the sections are where they are in `elf`. -/
def addressOf (elf : ElfParser) (sym : Symbol) : Nat :=
  if sym.type = sttSection then elf.vaddrAt sym.shndx
  else add32 sym.value (elf.vaddrAt sym.shndx)

/-- The address of the word that a relocation is for. -/
def wordOf (elf : ElfParser) (r : Relocation) : Nat := elf.vaddrAt r.target + r.offset

theorem type_of_byType {elf : ElfParser} {type i : Nat} {sh : SectionHeader}
    (h : elf.sectionHeaderByType type = some i) (hsh : elf.sections[i]? = some sh) :
    sh.type = type := by
  obtain ⟨hlt, htype, -⟩ := List.findIdx?_eq_some_iff_getElem.mp h
  rw [List.getElem?_eq_getElem hlt] at hsh
  cases hsh
  exact beq_iff_eq.mp htype

theorem symbolTable_of_count {elf : ElfParser} {i : Nat} (h : i < elf.symbolCount) :
    ∃ j sh, elf.sectionHeaderByType shtSymtab = some j ∧ elf.sections[j]? = some sh ∧
      elf.symbolTable = some sh ∧ 16 * i + 16 ≤ sh.size := by
  cases hj : elf.sectionHeaderByType shtSymtab with
  | none => simp [symbolCount, symbolTable, hj] at h
  | some j =>
      have hlt := (List.findIdx?_eq_some_iff_getElem.mp hj).1
      have htable : elf.symbolTable = some elf.sections[j] := by
        rw [symbolTable, hj, Option.bind_some, List.getElem?_eq_getElem hlt]
      refine ⟨j, _, rfl, List.getElem?_eq_getElem hlt, htable, ?_⟩
      rw [symbolCount, htable, Option.elim_some] at h
      omega

/-- A relocation section that counts, and what it is for. -/
theorem relocates_iff {elf : ElfParser} {sh : SectionHeader} :
    elf.relocates sh = true ↔ sh.type = shtRel ∧
      ∃ target, elf.sections[sh.info]? = some target ∧ target.isAlloc = true := by
  rw [relocates, decide_eq_true_iff]
  cases h : elf.sections[sh.info]? with
  | none => simp
  | some target => simp

theorem mem_relocations {elf : ElfParser} {m : Memory} {sh : SectionHeader}
    (hsh : sh ∈ elf.sections) (hrel : elf.relocates sh = true) {j : Nat} (hj : j < sh.size / 8) :
    relocationAt m sh.info (elf.start + sh.offset + 8 * j) ∈ elf.relocations m := by
  refine List.mem_flatMap.mpr ⟨sh, hsh, ?_⟩
  rw [relocationsOf, if_pos hrel]
  exact List.mem_map_of_mem (List.mem_range.mpr hj)

theorem exists_of_mem_relocations {elf : ElfParser} {m : Memory} {r : Relocation}
    (h : r ∈ elf.relocations m) :
    ∃ target, elf.sections[r.target]? = some target ∧ target.isAlloc = true := by
  obtain ⟨sh, -, hr⟩ := List.mem_flatMap.mp h
  rw [relocationsOf] at hr
  split at hr
  · next hrel =>
      obtain ⟨j, -, rfl⟩ := List.mem_map.mp hr
      exact (relocates_iff.mp hrel).2
  · cases hr

/-! ## §2. Images. -/

/-- An image of `length` bytes that was just parsed: its data, the names of its sections and
its symbols are in it, the section with the name `.strtab` is a string table, and no
relocation goes over the section that it is for. -/
structure WellFormed (elf : ElfParser) (m : Memory) (length : Nat) : Prop where
  symtab : elf.symtab = none
  strtab : elf.strtab = none
  inMemory : elf.start + length < wordSize
  data : ∀ sh ∈ elf.sections, sh.type ≠ shtNobits → sh.offset + sh.size ≤ length
  align : ∀ sh ∈ elf.sections, sh.AlignOk
  names : ∀ shstrtab, elf.sectionShstringTable = some shstrtab → ∀ sh ∈ elf.sections,
    ∃ t : Text, HasBytes m (elf.start + shstrtab.offset + sh.name) t.terminated ∧
      shstrtab.offset + sh.name + t.terminated.length ≤ length ∧
      (t = strtabName → sh.type = shtStrtab)
  symbols : ∀ sh, elf.symbolTable = some sh → sh.entsize = 16
  inSection : ∀ r ∈ elf.relocations m, ∀ target, elf.sections[r.target]? = some target →
    r.offset + 4 ≤ target.size

/-- The name of the section is `.strtab`. -/
def IsStrtab (elf : ElfParser) (m : Memory) (sh : SectionHeader) : Prop :=
  ∃ shstrtab, elf.sectionShstringTable = some shstrtab ∧
    HasBytes m (elf.start + shstrtab.offset + sh.name) strtabName.terminated

theorem WellFormed.type_of_isStrtab {elf : ElfParser} {m : Memory} {length : Nat}
    (hw : elf.WellFormed m length) {sh : SectionHeader} (hsh : sh ∈ elf.sections)
    (h : elf.IsStrtab m sh) : sh.type = shtStrtab := by
  obtain ⟨shstrtab, htab, hbytes⟩ := h
  obtain ⟨t, ht, -, htype⟩ := hw.names shstrtab htab sh hsh
  exact htype (ht.text_unique hbytes)

/-- A relocatable image: the sections have names, the relocation sections are for sections
of the image and use its symbol table, the symbols are defined in sections, and the
relocations are of the types `NONE`, `32` and `PC32`, for symbols that are section symbols
or of a lower type, and apart. -/
structure Relocatable (elf : ElfParser) (m : Memory) (length : Nat) : Prop
    extends elf.WellFormed m length where
  hasNames : elf.sectionShstringTable ≠ none
  relSections : ∀ sh ∈ elf.sections, sh.type = shtRel → sh.info < elf.sections.length ∧
    (elf.relocates sh → sh.entsize = 8 ∧ elf.sectionHeaderByType shtSymtab = some sh.link)
  defined : ∀ i < elf.symbolCount, (elf.symbol m i).type < sttSection →
    (elf.symbol m i).shndx < elf.sections.length
  used : ∀ r ∈ elf.relocations m, r.type ≤ 2 ∧ r.symbol < elf.symbolCount ∧
    (elf.symbol m r.symbol).type ≤ sttSection ∧ 0 < (elf.symbol m r.symbol).shndx ∧
    (elf.symbol m r.symbol).shndx < elf.sections.length
  apart : (elf.relocations m).Pairwise fun r r' =>
    r.target = r'.target → r.offset + 4 ≤ r'.offset ∨ r'.offset + 4 ≤ r.offset

/-! ## §3. The same image in two memories. -/

/-- Two memories with the same bytes from `start` on. -/
def SameFile (elf : ElfParser) (length : Nat) (m m' : Memory) : Prop :=
  ∀ k < length, m'.byte (elf.start + k) = m.byte (elf.start + k)

section SameFile

variable {elf : ElfParser} {length : Nat} {m m' : Memory}

theorem SameFile.load32 (h : elf.SameFile length m m') {k : Nat} (hk : k + 4 ≤ length) :
    m'.load32 (elf.start + k) = m.load32 (elf.start + k) :=
  Memory.load32_shift fun j hj => by rw [Nat.add_assoc, h _ (by omega)]

theorem SameFile.relocations (h : elf.SameFile length m m') (hw : elf.WellFormed m length) :
    elf.relocations m' = elf.relocations m := by
  refine List.flatMap_congr fun sh hsh => ?_
  rw [relocationsOf, relocationsOf]
  split
  · next hrel =>
      have hdata := hw.data sh hsh (by rw [(relocates_iff.mp hrel).1]; decide)
      refine List.map_congr_left fun j hj => ?_
      have hj := List.mem_range.mp hj
      have h1 := h.load32 (show sh.offset + 8 * j + 4 ≤ length by omega)
      have h2 := h.load32 (show sh.offset + 8 * j + 4 + 4 ≤ length by omega)
      simp only [← Nat.add_assoc] at h1 h2
      rw [relocationAt, relocationAt, h1, h2]
  · rfl

theorem SameFile.symbol (h : elf.SameFile length m m') (hw : elf.WellFormed m length) {i : Nat}
    (hi : i < elf.symbolCount) : elf.symbol m' i = elf.symbol m i := by
  obtain ⟨j, sh, hj, hsh, htable, hsize⟩ := elf.symbolTable_of_count hi
  have htype := type_of_byType hj hsh
  have hdata := hw.data sh (List.mem_of_getElem? hsh) (by rw [htype]; decide)
  rw [ElfParser.symbol, ElfParser.symbol, htable, Option.elim_some]
  refine symbolAt_shift fun k hk => ?_
  have := h (sh.offset + 16 * i + k) (by omega)
  simpa only [← Nat.add_assoc] using this

theorem SameFile.fileByte (h : elf.SameFile length m m') (hw : elf.WellFormed m length)
    {sh : SectionHeader} (hsh : sh ∈ elf.sections) {k : Nat} (hk : k < sh.size) :
    elf.fileByte m' sh k = elf.fileByte m sh k := by
  rw [ElfParser.fileByte, ElfParser.fileByte]
  split
  · rfl
  · next hno =>
      have hdata := hw.data sh hsh hno
      have := h (sh.offset + k) (by omega)
      simpa only [← Nat.add_assoc] using this

theorem SameFile.fileWord (h : elf.SameFile length m m') (hw : elf.WellFormed m length)
    {sh : SectionHeader} (hsh : sh ∈ elf.sections) {k : Nat} (hk : k + 4 ≤ sh.size) :
    elf.fileWord m' sh k = elf.fileWord m sh k := by
  rw [ElfParser.fileWord, ElfParser.fileWord]
  split
  · rfl
  · next hno =>
      have hdata := hw.data sh hsh hno
      have := h.load32 (show sh.offset + k + 4 ≤ length by omega)
      simpa only [← Nat.add_assoc] using this

theorem SameFile.wellFormed (h : elf.SameFile length m m') (hw : elf.WellFormed m length) :
    elf.WellFormed m' length where
  symtab := hw.symtab
  strtab := hw.strtab
  inMemory := hw.inMemory
  data := hw.data
  align := hw.align
  names shstrtab htab sh hsh := by
    obtain ⟨t, hbytes, hin, htype⟩ := hw.names shstrtab htab sh hsh
    refine ⟨t, fun k hk => ?_, hin, htype⟩
    rw [← hbytes k hk]
    have := h (shstrtab.offset + sh.name + k) (by omega)
    simpa only [← Nat.add_assoc] using this
  symbols := hw.symbols
  inSection := by
    rw [h.relocations hw]
    exact hw.inSection

/-- The same bytes are the same image. -/
theorem SameFile.relocatable (h : elf.SameFile length m m') (himg : elf.Relocatable m length) :
    elf.Relocatable m' length where
  toWellFormed := h.wellFormed himg.toWellFormed
  hasNames := himg.hasNames
  relSections := himg.relSections
  defined i hi := by
    rw [h.symbol himg.toWellFormed hi]
    exact himg.defined i hi
  used r hr := by
    rw [h.relocations himg.toWellFormed] at hr
    rw [h.symbol himg.toWellFormed (himg.used r hr).2.1]
    exact himg.used r hr
  apart := by
    rw [h.relocations himg.toWellFormed]
    exact himg.apart

end SameFile

end ElfParser

end Metta.ModuleLoader
