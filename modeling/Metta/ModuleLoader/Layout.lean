/-
  Metta.ModuleLoader.Layout — where the parts of modules go.

  The loader counts with words of 32 bits; the plan of a module counts with
  numbers.  When the plan ends below `2 ^ 32` the loader does what is planned,
  and the parts of all modules lie in order.

    • `plannedEnd` — the plan,
    • `placeSections_spec`, `loadSections_spec`, `loadTables_spec`,
      `endOfModule_eq` — each step of the loader follows it,
    • `install_spec` — a module that is loaded,
    • `HasRoom` — when the descriptor is in the range that it describes.
-/
import Metta.ModuleLoader.Def
import Metta.Machine.Placement

namespace Metta.ModuleLoader

open Metta.Machine

/-! ## §1. Alignment. -/

theorem sub32_one_of_pow {k : Nat} (hk : k < 32) : sub32 (2 ^ k) 1 = 2 ^ k - 1 := by
  have hpos : 0 < 2 ^ k := Nat.two_pow_pos k
  exact sub32_eq hpos (Nat.pow_lt_pow_right (by decide) hk)

/-- `align_bytes` is what is missing to the next multiple. -/
theorem alignBytes_eq (addr : Nat) {k : Nat} (hk : k < 32) :
    alignBytes addr (2 ^ k) = (2 ^ k - addr % 2 ^ k) % 2 ^ k := by
  have hlt : 2 ^ k < wordSize := Nat.pow_lt_pow_right (by decide) hk
  have hmod : addr % 2 ^ k ≤ 2 ^ k := (Nat.mod_lt _ (Nat.two_pow_pos k)).le
  rw [alignBytes, sub32_one_of_pow hk, Nat.and_two_pow_sub_one_eq_mod,
    Nat.and_two_pow_sub_one_eq_mod, sub32_eq hmod hlt]

/-- `page_align_up` does not go wrong below the last page. -/
theorem pageAlignUp_eq {a : Nat} (h : alignTo pageSize a < wordSize) :
    pageAlignUp a = alignTo pageSize a := by
  simp only [alignTo, pageSize, wordSize] at h
  have hsum : sub32 (add32 a 4096) 1 = a + 4095 := by
    simp only [sub32, add32, wordSize]
    omega
  have hmask : wordSize - 1 - sub32 4096 1 = wordSize - 2 ^ 12 := by decide
  rw [pageAlignUp, alignUp, pageSize, hsum, hmask,
    and_highMask (by simp only [wordSize]; omega) (by decide), alignTo]
  omega

/-! ## §2. Sections. -/

/-- The alignment of a section is a power of two or not given. -/
def SectionHeader.AlignOk (sh : SectionHeader) : Prop :=
  sh.addralign = 0 ∨ ∃ k < 32, sh.addralign = 2 ^ k

/-- A section as something to be placed: an address in the header moves all that
follows. -/
def SectionHeader.item (sh : SectionHeader) : Item := ⟨sh.vaddr, sh.addralign, sh.size⟩

/-- The memory of a section. -/
def SectionHeader.part (sh : SectionHeader) : Extent := ⟨sh.vaddr, sh.size⟩

/-- The sections that get memory. -/
def allocs (shs : List SectionHeader) : List SectionHeader := shs.filter (·.isAlloc)

/-- The sections that get memory, as things to be placed. -/
def items (shs : List SectionHeader) : List Item := (allocs shs).map SectionHeader.item

theorem allocs_cons_alloc {sh : SectionHeader} (h : sh.isAlloc = true) (shs : List SectionHeader) :
    allocs (sh :: shs) = sh :: allocs shs := List.filter_cons_of_pos h

theorem allocs_cons_other {sh : SectionHeader} (h : sh.isAlloc = false)
    (shs : List SectionHeader) : allocs (sh :: shs) = allocs shs :=
  List.filter_cons_of_neg (by simp [h])

theorem items_cons_alloc {sh : SectionHeader} (h : sh.isAlloc = true) (shs : List SectionHeader) :
    items (sh :: shs) = sh.item :: items shs := by
  rw [items, allocs_cons_alloc h, List.map_cons, items]

theorem items_cons_other {sh : SectionHeader} (h : sh.isAlloc = false) (shs : List SectionHeader) :
    items (sh :: shs) = items shs := by
  rw [items, allocs_cons_other h, items]

/-- The address that a section is given, with exact numbers. -/
theorem position_eq {sh : SectionHeader} (hok : sh.AlignOk) (base off : Nat) :
    base + (off + sh.vaddr) + (if sh.addralign > 1 then
        alignBytes (base + (off + sh.vaddr)) sh.addralign else 0)
      = sh.item.position (base + off) := by
  rw [Item.position, SectionHeader.item, Nat.add_assoc base off]
  by_cases h : 1 < sh.addralign
  · obtain hzero | ⟨k, hk, halign⟩ := hok
    · omega
    · rw [if_pos h, if_pos h, halign, alignBytes_eq _ hk, alignTo]
  · rw [if_neg h, if_neg h, Nat.add_zero]

/-- One turn of the first loop, below `2 ^ 32`. -/
theorem placeSections_cons_alloc {sh : SectionHeader} (halloc : sh.isAlloc = true)
    (hok : sh.AlignOk) {base off pos : Nat} (hpos : sh.item.position (base + off) = pos)
    (hend : pos + sh.size < wordSize) (shs : List SectionHeader) :
    placeSections base (sh :: shs) off
      = ({ sh with vaddr := pos } :: (placeSections base shs (pos + sh.size - base)).1,
          (placeSections base shs (pos + sh.size - base)).2) := by
  have hle : base + off + sh.vaddr ≤ pos := hpos ▸ sh.item.le_position (base + off)
  have hsum := position_eq hok base off
  rw [hpos] at hsum
  obtain ⟨align, halign⟩ : ∃ align, align = (if sh.addralign > 1 then
    alignBytes (base + (off + sh.vaddr)) sh.addralign else 0) := ⟨_, rfl⟩
  rw [← halign] at hsum
  have hoff : (if sh.vaddr = 0 then off else add32 off sh.vaddr) = off + sh.vaddr := by
    split
    · next h => rw [h, Nat.add_zero]
    · exact add32_eq (by omega)
  have hvaddr : add32 base (off + sh.vaddr) = base + (off + sh.vaddr) := add32_eq (by omega)
  have hnext : add32 (add32 (off + sh.vaddr) align) sh.size = pos + sh.size - base := by
    rw [add32_eq (show off + sh.vaddr + align < wordSize by omega), add32_eq (by omega)]
    omega
  simp only [placeSections, halloc, if_true, hoff, hvaddr, ← halign, hnext]
  rw [add32_eq (by omega), hsum]

/-- **The first loop** places the sections as planned. -/
theorem placeSections_spec (base : Nat) {shs : List SectionHeader} (hok : ∀ sh ∈ shs, sh.AlignOk)
    (off : Nat) (hfits : placedEnd (base + off) (items shs) < wordSize) :
    base + (placeSections base shs off).2 = placedEnd (base + off) (items shs) ∧
    (allocs (placeSections base shs off).1).map SectionHeader.part
      = place (base + off) (items shs) ∧
    ∀ sh ∈ allocs (placeSections base shs off).1,
      1 < sh.addralign → sh.vaddr % sh.addralign = 0 := by
  induction shs generalizing off with
  | nil => exact ⟨rfl, rfl, by simp [placeSections, allocs]⟩
  | cons sh shs ih =>
      have hsh := hok sh List.mem_cons_self
      have hshs : ∀ sh' ∈ shs, sh'.AlignOk := fun sh' h => hok sh' (List.mem_cons_of_mem _ h)
      cases halloc : sh.isAlloc with
      | false =>
          rw [items_cons_other halloc] at hfits ⊢
          simp only [placeSections, halloc, Bool.false_eq_true, if_false, allocs_cons_other halloc]
          exact ih hshs _ hfits
      | true =>
          rw [items_cons_alloc halloc] at hfits ⊢
          obtain ⟨pos, hpos⟩ : ∃ pos, sh.item.position (base + off) = pos := ⟨_, rfl⟩
          simp only [placedEnd, place, hpos, show sh.item.size = sh.size from rfl] at hfits ⊢
          have hend : pos + sh.size < wordSize := lt_of_le_of_lt (le_placedEnd _ _) hfits
          have hle : base + off + sh.vaddr ≤ pos := hpos ▸ sh.item.le_position (base + off)
          have hcur : base + (pos + sh.size - base) = pos + sh.size := by omega
          obtain ⟨h1, h2, h3⟩ := ih hshs _ (by rwa [hcur])
          rw [hcur] at h1 h2
          rw [placeSections_cons_alloc halloc hsh hpos hend]
          have hplaced : ({ sh with vaddr := pos } : SectionHeader).isAlloc = true := halloc
          simp only [allocs_cons_alloc hplaced, List.map_cons, h2, List.mem_cons]
          refine ⟨h1, rfl, ?_⟩
          rintro sh' (rfl | hsh') hbig
          · exact hpos ▸ sh.item.position_mod _ hbig
          · exact h3 sh' hsh' hbig

/-- The second loop goes to the greatest end of a section. -/
theorem loadSections_last (start : Nat) {shs : List SectionHeader} {mem : Memory} {last : Nat}
    (hfits : ∀ sh ∈ allocs shs, sh.vaddr + sh.size < wordSize) :
    (shs.foldl (loadSection start) (mem, last)).2
      = ((allocs shs).map SectionHeader.part).foldl (fun l x => max l (x.start + x.length)) last := by
  induction shs generalizing mem last with
  | nil => rfl
  | cons sh shs ih =>
      cases halloc : sh.isAlloc with
      | false =>
          rw [allocs_cons_other halloc] at hfits ⊢
          rw [List.foldl_cons, loadSection, if_neg (by simp [halloc]), ih hfits]
      | true =>
          rw [allocs_cons_alloc halloc] at hfits ⊢
          have hsh := hfits sh List.mem_cons_self
          rw [List.foldl_cons, loadSection, if_pos halloc,
            ih fun sh' h => hfits sh' (List.mem_cons_of_mem _ h), List.map_cons, List.foldl_cons,
            add32_eq hsh, SectionHeader.part]
          congr 1
          simp only [max_def]
          split_ifs <;> omega

/-- Where the sections end: with no section that gets memory, where the last module
did. -/
def sectionsEnd (last : Nat) (shs : List SectionHeader) : Nat :=
  if items shs = [] then last else placedEnd (alignTo pageSize last) (items shs)

theorem le_sectionsEnd (last : Nat) (shs : List SectionHeader) : last ≤ sectionsEnd last shs := by
  unfold sectionsEnd
  split
  · exact le_rfl
  · exact le_trans (le_alignTo _ _) (le_placedEnd _ _)

/-- **Both loops**: the sections are in order from `section_base` on. -/
theorem loadSections_spec {module : ElfParser} (hok : ∀ sh ∈ module.sections, sh.AlignOk)
    {last : Nat} (mem : Memory)
    (hfits : placedEnd (alignTo pageSize last) (items module.sections) < wordSize)
    {sections : List SectionHeader} {off : Nat}
    (hplace : placeSections (pageAlignUp last) module.sections 0 = (sections, off)) :
    pageAlignUp last = alignTo pageSize last ∧
    (sections.foldl (loadSection module.start) (mem, add32 last off)).2
      = sectionsEnd last module.sections ∧
    (allocs sections).map SectionHeader.part
      = place (alignTo pageSize last) (items module.sections) ∧
    ∀ sh ∈ allocs sections, 1 < sh.addralign → sh.vaddr % sh.addralign = 0 := by
  have hbase : pageAlignUp last = alignTo pageSize last :=
    pageAlignUp_eq (lt_of_le_of_lt (le_placedEnd _ _) hfits)
  obtain ⟨h1, h2, h3⟩ := placeSections_spec (alignTo pageSize last) hok 0 hfits
  rw [hbase] at hplace
  rw [hplace] at h1 h2 h3
  simp only [Nat.add_zero] at h1 h2 h3
  refine ⟨hbase, ?_, h2, h3⟩
  have hle := le_alignTo pageSize last
  have hends : ∀ sh ∈ allocs sections, sh.vaddr + sh.size < wordSize := by
    intro sh hsh
    have hmem : sh.part ∈ place (alignTo pageSize last) (items module.sections) :=
      h2 ▸ List.mem_map_of_mem hsh
    exact lt_of_le_of_lt ((place_stacked _ _).bounds hmem).2 hfits
  rw [loadSections_last _ hends, h2, foldl_max_place, add32_eq (by omega), sectionsEnd]
  split
  · next hnone =>
      rw [hnone, placedEnd] at h1
      omega
  · exact max_eq_right (by omega)

/-! ## §3. Tables. -/

/-- A section header without its offset, which is all that is changed when a table is
loaded. -/
def SectionHeader.shape (sh : SectionHeader) : SectionHeader := { sh with offset := 0 }

/-- Two images that differ in offsets only. -/
structure SameShape (a b : ElfParser) : Prop where
  symtab : b.symtab = a.symtab
  strtab : b.strtab = a.strtab
  sections : b.sections.map SectionHeader.shape = a.sections.map SectionHeader.shape

theorem SameShape.trans {a b c : ElfParser} (h : SameShape a b) (h' : SameShape b c) :
    SameShape a c :=
  ⟨h'.symtab.trans h.symtab, h'.strtab.trans h.strtab, h'.sections.trans h.sections⟩

theorem SameShape.get {a b : ElfParser} (h : SameShape a b) (i : Nat) :
    (b.sections[i]?).map SectionHeader.shape = (a.sections[i]?).map SectionHeader.shape := by
  rw [← List.getElem?_map, ← List.getElem?_map, h.sections]

theorem SameShape.length {a b : ElfParser} (h : SameShape a b) :
    b.sections.length = a.sections.length := by
  have := congrArg List.length h.sections
  simpa only [List.length_map] using this

theorem SameShape.header {a b : ElfParser} (h : SameShape a b) {i : Nat} {sh : SectionHeader}
    (hsh : a.sections[i]? = some sh) : ∃ off, b.sections[i]? = some { sh with offset := off } := by
  have hget := h.get i
  rw [hsh, Option.map_some, Option.map_eq_some_iff] at hget
  obtain ⟨sh', hsh', heq⟩ := hget
  refine ⟨sh'.offset, ?_⟩
  rw [hsh']
  exact congrArg (fun x : SectionHeader => some { x with offset := sh'.offset }) heq

theorem SameShape.allocs {a b : ElfParser} (h : SameShape a b) :
    (allocs b.sections).map SectionHeader.shape = (allocs a.sections).map SectionHeader.shape := by
  have hfilter : ∀ shs : List SectionHeader,
      (ModuleLoader.allocs shs).map SectionHeader.shape
        = ModuleLoader.allocs (shs.map SectionHeader.shape) := by
    intro shs
    rw [ModuleLoader.allocs, ModuleLoader.allocs, List.filter_map]
    rfl
  rw [hfilter, hfilter, h.sections]

/-- The bytes that a table needs with its header. -/
def tableBytes (module : ElfParser) (index : Option Nat) (wanted : SectionHeader → Bool) : Nat :=
  match index.bind (module.sections[·]?) with
  | none => 0
  | some sh => if wanted sh then 40 + sh.size else 0

theorem SameShape.tableBytes {a b : ElfParser} (h : SameShape a b) (index : Option Nat)
    {wanted : SectionHeader → Bool} (hw : ∀ sh, wanted sh.shape = wanted sh) :
    tableBytes b index wanted = tableBytes a index wanted := by
  cases index with
  | none => rfl
  | some i =>
      have hget := h.get i
      simp only [ModuleLoader.tableBytes, Option.bind_some]
      cases ha : a.sections[i]? with
      | none =>
          rw [ha, Option.map_none, Option.map_eq_none_iff] at hget
          rw [hget]
      | some sh =>
          rw [ha, Option.map_some, Option.map_eq_some_iff] at hget
          obtain ⟨sh', hsh', hshape⟩ := hget
          have hsize : sh'.shape.size = sh.shape.size := by rw [hshape]
          have hsize : sh'.size = sh.size := hsize
          have hwant : wanted sh' = wanted sh := by rw [← hw sh', hshape, hw sh]
          rw [hsh']
          simp only [hwant, hsize]

/-- Loading a table changes offsets only. -/
theorem loadTableIf_shape (loadBase : Nat) (index : Option Nat) (wanted : SectionHeader → Bool)
    (mem : Memory) (last : Nat) (module : ElfParser) :
    SameShape module (loadTableIf loadBase index wanted (mem, last, module)).2.2.2 := by
  have hsame : SameShape module module := ⟨rfl, rfl, rfl⟩
  cases index with
  | none => exact hsame
  | some i =>
      simp only [loadTableIf]
      cases hsh : module.sections[i]? with
      | none => exact hsame
      | some sh =>
          cases hwant : wanted sh with
          | false => simpa [hwant] using hsame
          | true =>
              have hi : i < module.sections.length := (List.getElem?_eq_some_iff.mp hsh).1
              simp only [hwant, if_true, loadTable]
              refine ⟨rfl, rfl, List.ext_getElem? fun j => ?_⟩
              rw [List.getElem?_map, List.getElem?_map, List.getElem?_set]
              by_cases hij : i = j
              · rw [if_pos hij, if_pos hi, ← hij, hsh]
                rfl
              · rw [if_neg hij]

/-- A table goes to the cursor, and the cursor behind it. -/
theorem loadTableIf_spec (loadBase : Nat) (index : Option Nat) (wanted : SectionHeader → Bool)
    (mem : Memory) {last : Nat} {module : ElfParser}
    (hfits : last + tableBytes module index wanted < wordSize) :
    (loadTableIf loadBase index wanted (mem, last, module)).2.2.1
      = last + tableBytes module index wanted ∧
    (tableBytes module index wanted ≠ 0 →
      (loadTableIf loadBase index wanted (mem, last, module)).1 = last) := by
  cases index with
  | none => exact ⟨rfl, fun h => absurd rfl h⟩
  | some i =>
      simp only [loadTableIf, tableBytes, Option.bind_some] at hfits ⊢
      cases hsh : module.sections[i]? with
      | none => exact ⟨rfl, fun h => absurd rfl h⟩
      | some sh =>
          rw [hsh] at hfits
          cases hwant : wanted sh with
          | false => simp [hwant]
          | true =>
              simp only [hwant, if_true] at hfits ⊢
              refine ⟨?_, fun _ => trivial⟩
              simp only [loadTable]
              rw [add32_eq (show last + 40 < wordSize by omega), add32_eq (by omega)]
              omega

/-- The bytes of the symbol table. -/
def symtabBytes (module : ElfParser) : Nat := tableBytes module module.symtab (·.size > 0)

/-- The bytes of the string table. -/
def strtabBytes (module : ElfParser) : Nat := tableBytes module module.strtab fun _ => true

theorem SameShape.symtabBytes {a b : ElfParser} (h : SameShape a b) :
    symtabBytes b = symtabBytes a := by
  rw [ModuleLoader.symtabBytes, ModuleLoader.symtabBytes, h.symtab]
  exact h.tableBytes _ fun _ => rfl

theorem SameShape.strtabBytes {a b : ElfParser} (h : SameShape a b) :
    strtabBytes b = strtabBytes a := by
  rw [ModuleLoader.strtabBytes, ModuleLoader.strtabBytes, h.strtab]
  exact h.tableBytes _ fun _ => rfl

/-- The parts of memory that the tables have. -/
def tableParts (module : ElfParser) (symtabStart strtabStart : Nat) : List Extent :=
  [⟨symtabStart, symtabBytes module⟩].filter (·.length ≠ 0)
    ++ [⟨strtabStart, strtabBytes module⟩].filter (·.length ≠ 0)

/-- Where the tables start. -/
def tablesStart (last : Nat) (module : ElfParser) : Nat :=
  if module.symtab ≠ none ∨ module.strtab ≠ none then alignTo pageSize last else last

/-- Where the tables end. -/
def tablesEnd (last : Nat) (module : ElfParser) : Nat :=
  tablesStart last module + symtabBytes module + strtabBytes module

theorem le_tablesStart (last : Nat) (module : ElfParser) : last ≤ tablesStart last module := by
  unfold tablesStart
  split
  · exact le_alignTo _ _
  · exact le_rfl

theorem stacked_singleton {c e : Nat} {x : Extent} (h : x.length ≠ 0 → x.start = c)
    (he : c + x.length = e) : Stacked c ([x].filter (·.length ≠ 0)) e := by
  by_cases hx : x.length = 0
  · simp only [List.filter_cons, hx, ne_eq, not_true_eq_false, decide_false, Bool.false_eq_true,
      if_false, List.filter_nil, Stacked]
    omega
  · have hstart := h hx
    simp only [List.filter_cons, hx, ne_eq, not_false_eq_true, decide_true, if_true,
      List.filter_nil, Stacked]
    omega

/-- The image when it is known where its tables are. -/
def ElfParser.known (module : ElfParser) (mem : Memory) : ElfParser :=
  module.sectionSymbolTable.sectionStringTable mem

theorem ElfParser.known_sections (module : ElfParser) (mem : Memory) :
    (module.known mem).sections = module.sections := by
  rw [known, sectionStringTable, sectionSymbolTable]
  split <;> split <;> rfl

theorem ElfParser.known_start (module : ElfParser) (mem : Memory) :
    (module.known mem).start = module.start ∧ (module.known mem).shstrndx = module.shstrndx := by
  rw [known, sectionStringTable, sectionSymbolTable]
  split <;> split <;> exact ⟨rfl, rfl⟩

theorem ElfParser.known_symtab (module : ElfParser) (mem : Memory) :
    (module.known mem).symtab = module.sectionSymbolTable.symtab := by
  rw [known, sectionStringTable]
  split <;> rfl

/-- How the tables are loaded: one, then the other, where they are planned. -/
theorem loadTables_cases {loadBase : Nat} {mem : Memory} {last : Nat} {module : ElfParser}
    {t : Tables} (ht : loadTables loadBase mem last module = t)
    (hfits : tablesEnd last t.module < wordSize) {known : ElfParser} (hknown : module.known mem = known) :
    SameShape known t.module ∧
    ∃ start mem1 last1 module1, start = tablesStart last t.module ∧ SameShape known module1 ∧
      last1 = start + symtabBytes t.module ∧ t.last = last1 + strtabBytes t.module ∧
      loadTableIf loadBase known.symtab (·.size > 0) (mem, start, known)
        = (t.symtabStart, mem1, last1, module1) ∧
      loadTableIf loadBase known.strtab (fun _ => true) (mem1, last1, module1)
        = (t.strtabStart, t.mem, t.last, t.module) := by
  obtain ⟨start, mem1, last1, module1, hstart, h1, h2⟩ : ∃ start mem1 last1 module1,
      (if known.symtab ≠ none ∨ known.strtab ≠ none then pageAlignUp last else last) = start ∧
      loadTableIf loadBase known.symtab (·.size > 0) (mem, start, known)
        = (t.symtabStart, mem1, last1, module1) ∧
      loadTableIf loadBase known.strtab (fun _ => true) (mem1, last1, module1)
        = (t.strtabStart, t.mem, t.last, t.module) := by
    rw [← ht, ← hknown]
    exact ⟨_, _, _, _, rfl, rfl, rfl⟩
  have hshape1 : SameShape known module1 := by
    have := loadTableIf_shape loadBase known.symtab (·.size > 0) mem start known
    rwa [h1] at this
  have hshape : SameShape known t.module := by
    have := loadTableIf_shape loadBase known.strtab (fun _ => true) mem1 last1 module1
    rw [h2] at this
    exact hshape1.trans this
  have hplan : tablesStart last t.module = tablesStart last known := by
    rw [tablesStart, tablesStart, hshape.symtab, hshape.strtab]
  simp only [tablesEnd, hplan, hshape.symtabBytes, hshape.strtabBytes] at hfits ⊢
  -- the cursor starts where it is planned
  have hstart' : start = tablesStart last known := by
    rw [← hstart, tablesStart]
    split
    · next h =>
        rw [tablesStart, if_pos h] at hfits
        exact pageAlignUp_eq (by omega)
    · rfl
  rw [← hstart'] at hfits
  obtain ⟨hlast1, -⟩ := loadTableIf_spec loadBase known.symtab (·.size > 0) mem
    (show start + symtabBytes known < wordSize by omega)
  rw [h1] at hlast1
  have hlast1 : last1 = start + symtabBytes known := hlast1
  have hbytes2 : tableBytes module1 known.strtab (fun _ => true) = strtabBytes known :=
    hshape1.tableBytes _ fun _ => rfl
  obtain ⟨hlast2, -⟩ := loadTableIf_spec loadBase known.strtab (fun _ => true) mem1
    (show last1 + tableBytes module1 known.strtab (fun _ => true) < wordSize by
      rw [hbytes2]
      omega)
  rw [h2, hbytes2] at hlast2
  exact ⟨hshape, start, mem1, last1, module1, hstart', hshape1, hlast1, hlast2, h1, h2⟩

/-- **The tables** are in order where they are planned. -/
theorem loadTables_spec (loadBase : Nat) (mem : Memory) (last : Nat) (module : ElfParser)
    {t : Tables} (ht : loadTables loadBase mem last module = t)
    (hfits : tablesEnd last t.module < wordSize) :
    t.last = tablesEnd last t.module ∧
    Stacked (tablesStart last t.module) (tableParts t.module t.symtabStart t.strtabStart) t.last ∧
    t.module.symtab = module.sectionSymbolTable.symtab ∧
    t.module.strtab = (module.sectionSymbolTable.sectionStringTable mem).strtab ∧
    (allocs t.module.sections).map SectionHeader.shape
      = (allocs module.sections).map SectionHeader.shape := by
  obtain ⟨hshape, start, mem1, last1, module1, hstart, hshape1, hlast1, hlast2, h1, h2⟩ :=
    loadTables_cases ht hfits rfl
  rw [tablesEnd, ← hstart] at hfits
  have hbytes1 : symtabBytes t.module = symtabBytes (module.known mem) := hshape.symtabBytes
  have hbytes2 : tableBytes module1 (module.known mem).strtab (fun _ => true)
      = strtabBytes t.module :=
    (hshape1.tableBytes _ fun _ => rfl).trans hshape.strtabBytes.symm
  have hsym : symtabBytes t.module ≠ 0 → t.symtabStart = start := by
    rw [hbytes1]
    obtain ⟨-, hsym⟩ := loadTableIf_spec loadBase (module.known mem).symtab (·.size > 0) mem
      (show start + symtabBytes (module.known mem) < wordSize by omega)
    rwa [h1] at hsym
  have hstr : strtabBytes t.module ≠ 0 → t.strtabStart = last1 := by
    obtain ⟨-, hstr⟩ := loadTableIf_spec loadBase (module.known mem).strtab (fun _ => true) mem1
      (show last1 + tableBytes module1 (module.known mem).strtab (fun _ => true) < wordSize by
        rw [hbytes2]
        omega)
    rwa [h2, hbytes2] at hstr
  refine ⟨by rw [tablesEnd]; omega, ?_, hshape.symtab.trans (module.known_symtab mem),
    hshape.strtab, ?_⟩
  · -- both tables have one place each, the strings behind the symbols
    rw [← hstart]
    exact (stacked_singleton hsym hlast1.symm).append (stacked_singleton hstr hlast2.symm)
  · rw [hshape.allocs, module.known_sections]

/-! ## §4. The descriptor. -/

/-- Where a module ends when its tables end at `e`. -/
def pagesEnd (e : Nat) : Nat :=
  if alignTo pageSize e - e < ModuleDescriptor.size then alignTo pageSize e + pageSize
  else alignTo pageSize e

theorem alignTo_le_pagesEnd (e : Nat) : alignTo pageSize e ≤ pagesEnd e := by
  unfold pagesEnd
  split
  · exact Nat.le_add_right _ _
  · exact le_rfl

theorem pagesEnd_mod (e : Nat) : pagesEnd e % pageSize = 0 := by
  have h := alignTo_mod (show 0 < pageSize by decide) e
  unfold pagesEnd
  split
  · rw [Nat.add_mod_right, h]
  · exact h

/-- There is room for the descriptor. -/
theorem add_size_le_pagesEnd (e : Nat) : e + ModuleDescriptor.size ≤ pagesEnd e := by
  have hle := le_alignTo pageSize e
  unfold pagesEnd
  split
  · simp only [ModuleDescriptor.size, pageSize] at *
    omega
  · omega

theorem endOfModule_eq {e : Nat} (hfits : pagesEnd e < wordSize) : endOfModule e = pagesEnd e := by
  have hup := alignTo_le_pagesEnd e
  have hle := le_alignTo pageSize e
  have hmod := alignTo_mod (show 0 < pageSize by decide) e
  have hpage : pageAlignUp e = alignTo pageSize e := pageAlignUp_eq (by omega)
  rw [endOfModule, hpage, sub32_eq hle (by omega), pagesEnd]
  split
  · next hsmall =>
      rw [pagesEnd, if_pos hsmall] at hfits
      have hnext : alignTo pageSize (alignTo pageSize e + 1) = alignTo pageSize e + pageSize := by
        obtain ⟨x, hx⟩ : ∃ x, x = alignTo pageSize e := ⟨_, rfl⟩
        rw [← hx] at hmod ⊢
        simp only [alignTo, pageSize] at hmod ⊢
        omega
      have hone : 1 ≤ pageSize := by decide
      rw [add32_eq (by omega), pageAlignUp_eq (by rwa [hnext]), hnext]
  · rfl

/-! ## §5. A module that is loaded. -/

/-- What is known of a module that was loaded: its headers, its descriptor, and
`*d_last_available_address` when the call was done. -/
structure Installed where
  module : ElfParser
  descriptor : ModuleDescriptor
  last : Nat

namespace Installed

/-- The memory of the sections. -/
def sectionParts (mod : Installed) : List Extent :=
  (allocs mod.module.sections).map SectionHeader.part

/-- The memory of the descriptor. -/
def descriptorPart (mod : Installed) : Extent :=
  ⟨mod.last - ModuleDescriptor.size, ModuleDescriptor.size⟩

/-- All that a module has in memory. -/
def parts (mod : Installed) : List Extent :=
  mod.sectionParts
    ++ tableParts mod.module mod.descriptor.symtabStart mod.descriptor.strtabStart
    ++ [mod.descriptorPart]

/-- `[load_base, load_base + loaded_size)`. -/
def range (mod : Installed) : Extent := ⟨mod.descriptor.loadBase, mod.descriptor.loadedSize⟩

/-- Every section is at a multiple of its alignment. -/
def Aligned (mod : Installed) : Prop :=
  ∀ sh ∈ allocs mod.module.sections, 1 < sh.addralign → sh.vaddr % sh.addralign = 0

end Installed

/-- Where a module ends by plan, for the headers that it comes with and the tables that
are found. -/
def plannedEnd (last : Nat) (shs : List SectionHeader) (module : ElfParser) : Nat :=
  pagesEnd (tablesEnd (sectionsEnd last shs) module)

/-- What `install` has done when it returns. -/
theorem install_cases {s s' : Loader} {name : Text} {module module' : ElfParser}
    {d : ModuleDescriptor} (h : s.install name module = .ok (s', module', d)) :
    ∃ mem : Memory, module' = (s.loadParts module).module ∧
      d = s.descriptor name module (s.loadParts module) mem ∧
      s'.lastAvailableAddress = endOfModule (s.loadParts module).last ∧
      s'.mem = mem.write (sub32 (endOfModule (s.loadParts module).last) ModuleDescriptor.size)
        d.bytes := by
  rw [Loader.install] at h
  split at h
  · cases h
  · obtain ⟨mem', -, h⟩ := bind_eq_ok.mp h
    obtain ⟨mem, -, h⟩ := bind_eq_ok.mp h
    simp only at h
    split at h
    · cases h
    · obtain ⟨rfl, rfl, rfl⟩ : _ ∧ _ ∧ _ := by
        simpa only [Except.ok.injEq, Prod.mk.injEq] using h
      exact ⟨mem, rfl, rfl, rfl, rfl⟩

theorem ModuleDescriptor.length_bytes (d : ModuleDescriptor) : d.bytes.length = 64 := by
  simp only [bytes, nameField, List.length_append, length_le32, List.length_take,
    List.length_replicate]
  omega

theorem part_eq_of_shape {shs shs' : List SectionHeader}
    (h : shs'.map SectionHeader.shape = shs.map SectionHeader.shape) :
    shs'.map SectionHeader.part = shs.map SectionHeader.part := by
  have hpart : SectionHeader.part = SectionHeader.part ∘ SectionHeader.shape := rfl
  rw [hpart, ← List.map_map, h, List.map_map]

theorem aligned_of_shape {shs shs' : List SectionHeader}
    (h : shs'.map SectionHeader.shape = shs.map SectionHeader.shape)
    (hal : ∀ sh ∈ shs, 1 < sh.addralign → sh.vaddr % sh.addralign = 0) :
    ∀ sh ∈ shs', 1 < sh.addralign → sh.vaddr % sh.addralign = 0 := by
  intro sh hsh
  have hmem : sh.shape ∈ shs.map SectionHeader.shape := h ▸ List.mem_map_of_mem hsh
  obtain ⟨sh0, hsh0, heq⟩ := List.mem_map.mp hmem
  have hv : sh0.shape.vaddr = sh.shape.vaddr := by rw [heq]
  have ha : sh0.shape.addralign = sh.shape.addralign := by rw [heq]
  have hres := hal sh0 hsh0
  rw [show sh0.vaddr = sh.vaddr from hv, show sh0.addralign = sh.addralign from ha] at hres
  exact hres

/-- The module has something in memory besides its descriptor, or a table that is empty. -/
def HasParts (shs : List SectionHeader) (module : ElfParser) : Prop :=
  items shs ≠ [] ∨ module.symtab ≠ none ∨ module.strtab ≠ none

/-- How sections and tables are loaded: the sections go where they are planned, and the
tables behind them. -/
theorem loadParts_cases (s : Loader) {module : ElfParser} (hok : ∀ sh ∈ module.sections, sh.AlignOk)
    {t : Tables} (ht : s.loadParts module = t)
    (hfits : plannedEnd s.lastAvailableAddress module.sections t.module < wordSize)
    {last : Nat} (hlast : last = s.lastAvailableAddress) {secEnd : Nat}
    (hsecEnd : secEnd = sectionsEnd last module.sections) :
    pageAlignUp last = alignTo pageSize last ∧
    placedEnd (alignTo pageSize last) (items module.sections) < wordSize ∧
    tablesEnd secEnd t.module < wordSize ∧
    ∃ sections off mem, placeSections (alignTo pageSize last) module.sections 0 = (sections, off) ∧
      (allocs sections).map SectionHeader.part
        = place (alignTo pageSize last) (items module.sections) ∧
      (∀ sh ∈ allocs sections, 1 < sh.addralign → sh.vaddr % sh.addralign = 0) ∧
      sections.foldl (loadSection module.start) (s.mem, add32 last off) = (mem, secEnd) ∧
      loadTables (alignTo pageSize last) mem secEnd { module with sections := sections } = t := by
  rw [← hlast] at hfits
  have hle := le_sectionsEnd last module.sections
  have hstart := le_tablesStart secEnd t.module
  have htables : tablesEnd secEnd t.module < wordSize := by
    have := le_trans (le_alignTo pageSize _) (alignTo_le_pagesEnd (tablesEnd secEnd t.module))
    rw [plannedEnd, ← hsecEnd] at hfits
    omega
  have hbase : alignTo pageSize last < wordSize := by
    have hmono : alignTo pageSize last ≤ alignTo pageSize (tablesEnd secEnd t.module) :=
      alignTo_mono (by decide) (by rw [tablesEnd]; omega)
    have := alignTo_le_pagesEnd (tablesEnd secEnd t.module)
    rw [plannedEnd, ← hsecEnd] at hfits
    omega
  have hplaced : placedEnd (alignTo pageSize last) (items module.sections) < wordSize := by
    by_cases hnone : items module.sections = []
    · rw [hnone]
      exact hbase
    · rw [tablesEnd] at htables
      rw [sectionsEnd, if_neg hnone] at hsecEnd
      omega
  obtain ⟨sections, off, hplace⟩ : ∃ sections off,
      placeSections (pageAlignUp last) module.sections 0 = (sections, off) := ⟨_, _, rfl⟩
  obtain ⟨h1, h2, h3, h4⟩ := loadSections_spec hok s.mem hplaced hplace
  obtain ⟨mem, hmem⟩ : ∃ mem, sections.foldl (loadSection module.start) (s.mem, add32 last off)
      = (mem, secEnd) := ⟨_, by rw [hsecEnd, ← h2]⟩
  have hload : loadTables (pageAlignUp last) mem secEnd { module with sections := sections } = t := by
    rw [← ht, Loader.loadParts, ← hlast]
    simp only [hplace, hmem]
  rw [h1] at hplace hload
  exact ⟨h1, hplaced, htables, sections, off, mem, hplace, h3, h4, hmem, hload⟩

/-- **Sections and tables** are in order from `load_base` on, if there are any. -/
theorem loadParts_spec (s : Loader) {module : ElfParser} (hok : ∀ sh ∈ module.sections, sh.AlignOk)
    {t : Tables} (ht : s.loadParts module = t)
    (hfits : plannedEnd s.lastAvailableAddress module.sections t.module < wordSize) :
    pageAlignUp s.lastAvailableAddress = alignTo pageSize s.lastAvailableAddress ∧
    t.last = tablesEnd (sectionsEnd s.lastAvailableAddress module.sections) t.module ∧
    (∀ sh ∈ allocs t.module.sections, 1 < sh.addralign → sh.vaddr % sh.addralign = 0) ∧
    ((HasParts module.sections t.module ∧
        Stacked (alignTo pageSize s.lastAvailableAddress)
          ((allocs t.module.sections).map SectionHeader.part
            ++ tableParts t.module t.symtabStart t.strtabStart) t.last) ∨
      (¬ HasParts module.sections t.module ∧ t.last = s.lastAvailableAddress ∧
        (allocs t.module.sections).map SectionHeader.part
          ++ tableParts t.module t.symtabStart t.strtabStart = [])) := by
  obtain ⟨last, hlast⟩ : ∃ last, last = s.lastAvailableAddress := ⟨_, rfl⟩
  obtain ⟨secEnd, hsecEnd⟩ : ∃ secEnd, secEnd = sectionsEnd last module.sections := ⟨_, rfl⟩
  obtain ⟨h1, -, htables, sections, off, mem, -, h3, h4, -, hload⟩ :=
    loadParts_cases s hok ht hfits hlast hsecEnd
  rw [← hlast] at hfits ⊢
  have hstart := le_tablesStart secEnd t.module
  obtain ⟨h5, h6, -, -, h7⟩ := loadTables_spec _ _ _ _ hload htables
  have hparts : (allocs t.module.sections).map SectionHeader.part
      = place (alignTo pageSize last) (items module.sections) :=
    (part_eq_of_shape h7).trans h3
  rw [← hsecEnd, hparts]
  refine ⟨h1, h5, aligned_of_shape h7 h4, ?_⟩
  -- without sections the tables are all there is, if they are there
  by_cases hnone : items module.sections = []
  · rw [sectionsEnd, if_pos hnone] at hsecEnd
    rw [hnone, place, List.nil_append]
    by_cases hfound : t.module.symtab ≠ none ∨ t.module.strtab ≠ none
    · rw [tablesStart, if_pos hfound, hsecEnd] at h6
      exact .inl ⟨.inr hfound, h6⟩
    · obtain ⟨hsym, hstr⟩ : t.module.symtab = none ∧ t.module.strtab = none := by
        simpa [not_or] using hfound
      have hsize : symtabBytes t.module = 0 ∧ strtabBytes t.module = 0 := by
        rw [symtabBytes, strtabBytes, hsym, hstr]
        exact ⟨rfl, rfl⟩
      refine .inr ⟨?_, ?_, ?_⟩
      · simp [HasParts, hnone, hsym, hstr]
      · rw [h5, tablesEnd, tablesStart, if_neg hfound, hsize.1, hsize.2, hsecEnd]
        rfl
      · rw [tableParts, hsize.1, hsize.2]
        rfl
  · rw [sectionsEnd, if_neg hnone] at hsecEnd
    refine .inl ⟨.inl hnone, (place_stacked _ _).append (h6.mono ?_ le_rfl)⟩
    rw [← hsecEnd]
    exact hstart

/-- Without a section that gets memory nothing is placed and nothing is loaded. -/
theorem loadSections_none {shs : List SectionHeader} (h : items shs = []) (base off start : Nat)
    (r : Memory × Nat) :
    placeSections base shs off = (shs, off) ∧ shs.foldl (loadSection start) r = r := by
  induction shs with
  | nil => exact ⟨rfl, rfl⟩
  | cons sh shs ih =>
      cases halloc : sh.isAlloc with
      | true =>
          rw [items_cons_alloc halloc] at h
          cases h
      | false =>
          rw [items_cons_other halloc] at h
          obtain ⟨h1, h2⟩ := ih h
          refine ⟨?_, ?_⟩
          · rw [placeSections, if_neg (by simp [halloc]), h1]
          · rw [List.foldl_cons, loadSection, if_neg (by simp [halloc]), h2]

/-- The descriptor does not fit between the last module and the next page, or the module
has a section or a table that goes to the next page. -/
def HasRoom (s : Loader) (module : ElfParser) : Prop :=
  (∃ sh ∈ module.sections, sh.isAlloc = true) ∨ module.sectionSymbolTable.symtab ≠ none ∨
    (module.sectionSymbolTable.sectionStringTable s.mem).strtab ≠ none ∨
    sub32 (pageAlignUp s.lastAvailableAddress) s.lastAvailableAddress < ModuleDescriptor.size

theorem items_ne_nil_iff {shs : List SectionHeader} :
    items shs ≠ [] ↔ ∃ sh ∈ shs, sh.isAlloc = true := by
  simp only [items, allocs, ne_eq, List.map_eq_nil_iff, List.filter_eq_nil_iff, not_forall,
    Classical.not_not, exists_prop]

theorem hasRoom_iff (s : Loader) {module : ElfParser} {t : Tables} (ht : s.loadParts module = t)
    (hfits : tablesEnd (sectionsEnd s.lastAvailableAddress module.sections) t.module < wordSize) :
    HasRoom s module ↔ HasParts module.sections t.module ∨
      sub32 (pageAlignUp s.lastAvailableAddress) s.lastAvailableAddress < ModuleDescriptor.size := by
  rw [HasRoom, HasParts, ← items_ne_nil_iff]
  by_cases hnone : items module.sections = []
  · obtain ⟨h1, h2⟩ := loadSections_none hnone (pageAlignUp s.lastAvailableAddress) 0 module.start
      (s.mem, s.lastAvailableAddress)
    have hle := le_tablesStart (sectionsEnd s.lastAvailableAddress module.sections) t.module
    have hlast : sectionsEnd s.lastAvailableAddress module.sections = s.lastAvailableAddress := by
      rw [sectionsEnd, if_pos hnone]
    have hadd : add32 s.lastAvailableAddress 0 = s.lastAvailableAddress :=
      add32_eq (by rw [tablesEnd] at hfits; omega)
    have hload : loadTables (pageAlignUp s.lastAvailableAddress) s.mem s.lastAvailableAddress module
        = t := by
      rw [← ht, Loader.loadParts]
      simp only [h1, hadd, h2]
    obtain ⟨-, -, hsym, hstr, -⟩ := loadTables_spec _ _ _ _ hload (by rwa [hlast] at hfits)
    rw [hsym, hstr]
    simp only [hnone, ne_eq, not_true_eq_false, false_or, or_assoc]
  · simp only [ne_eq, hnone, not_false_eq_true, true_or]

/-- **A module that is loaded**: its range is made of whole pages, all it has is in order
behind what was there, and its descriptor ends at the new last address.  It is all in the
range exactly when there was room. -/
theorem install_spec {s s' : Loader} {name : Text} {module module' : ElfParser}
    {d : ModuleDescriptor} (h : s.install name module = .ok (s', module', d))
    (hok : ∀ sh ∈ module.sections, sh.AlignOk)
    (hfits : plannedEnd s.lastAvailableAddress module.sections module' < wordSize)
    {mod : Installed} (hmod : mod = ⟨module', d, s'.lastAvailableAddress⟩) :
    mod.Aligned ∧ mod.range.start % pageSize = 0 ∧ mod.range.length % pageSize = 0 ∧
    mod.range.start + mod.range.length = s'.lastAvailableAddress ∧
    s'.lastAvailableAddress % pageSize = 0 ∧
    HasBytes s'.mem (s'.lastAvailableAddress - ModuleDescriptor.size) d.bytes ∧
    Stacked s.lastAvailableAddress mod.parts s'.lastAvailableAddress ∧
    ((∀ e ∈ mod.parts, e.Within mod.range) ↔ HasRoom s module) := by
  obtain ⟨mem, hmodule, hd, hlast', hmem'⟩ := install_cases h
  obtain ⟨t, ht⟩ : ∃ t, s.loadParts module = t := ⟨_, rfl⟩
  rw [ht] at hmodule hd hlast' hmem'
  rw [hmodule] at hfits
  obtain ⟨hbase, hlast, haligned, hparts⟩ := loadParts_spec s hok ht hfits
  rw [plannedEnd, ← hlast] at hfits
  have hroom := hasRoom_iff s ht (by
    rw [← hlast]
    exact lt_of_le_of_lt (le_trans (Nat.le_add_right _ _) (add_size_le_pagesEnd _)) hfits)
  have hend : endOfModule t.last = pagesEnd t.last := endOfModule_eq hfits
  have hsize := add_size_le_pagesEnd t.last
  rw [hend] at hlast' hmem'
  -- the addresses get names, so that what follows is linear in them
  obtain ⟨last, hs⟩ : ∃ last, last = s.lastAvailableAddress := ⟨_, rfl⟩
  obtain ⟨base, hb⟩ : ∃ base, base = alignTo pageSize last := ⟨_, rfl⟩
  obtain ⟨ended, he⟩ : ∃ ended, ended = pagesEnd t.last := ⟨_, rfl⟩
  rw [← hs, ← hb] at hbase hparts
  rw [← hs, hbase] at hroom
  rw [← he] at hlast' hmem' hsize hfits
  rw [← hs, hlast']
  -- the addresses are in order, and the ends are whole pages
  have hlastle : last ≤ t.last := by
    rw [hlast, ← hs]
    have h1 := le_sectionsEnd last module.sections
    have h2 := le_tablesStart (sectionsEnd last module.sections) t.module
    rw [tablesEnd]
    omega
  have hbasele : base ≤ ended := by
    rw [hb, he]
    exact le_trans (alignTo_mono (by decide) hlastle) (alignTo_le_pagesEnd _)
  have hended : ended % pageSize = 0 := he ▸ pagesEnd_mod _
  have hbasemod : base % pageSize = 0 := hb ▸ alignTo_mod (by decide) _
  have hrange : mod.range = ⟨base, ended - base⟩ := by
    rw [hmod, Installed.range, hd]
    simp only [Loader.descriptor, hend, ← he, ← hs, hbase, sub32_eq hbasele hfits]
  have hdesc : mod.descriptorPart = ⟨ended - ModuleDescriptor.size, ModuleDescriptor.size⟩ := by
    rw [hmod, Installed.descriptorPart, hlast']
  have hall : mod.parts = (allocs t.module.sections).map SectionHeader.part
      ++ tableParts t.module t.symtabStart t.strtabStart ++ [mod.descriptorPart] := by
    rw [hmod, hd, hmodule]
    rfl
  have hdescStacked : Stacked t.last [mod.descriptorPart] ended := by
    rw [hdesc]
    exact ⟨by simp only; omega, by simp only [Stacked]; omega⟩
  rw [hrange]
  refine ⟨?_, hbasemod, ?_, by simp only; omega, hended, ?_, ?_, ?_⟩
  · -- the sections are aligned
    rw [hmod, hmodule]
    exact haligned
  · simp only [pageSize] at hended hbasemod ⊢
    omega
  · rw [hmem', sub32_eq (by omega) hfits]
    exact fun i hi => Memory.byte_write_same _ _ _ hi
  · -- all parts are behind one another, the descriptor last
    rw [hall]
    rcases hparts with ⟨-, hst⟩ | ⟨-, hsame, hnil⟩
    · exact (hst.mono (hb ▸ le_alignTo _ _) le_rfl).append hdescStacked
    · rw [hnil, List.nil_append]
      exact hdescStacked.mono hlastle le_rfl
  · -- they are in the range unless there is nothing but the descriptor
    rw [hroom, hall]
    rcases hparts with ⟨hhas, hst⟩ | ⟨hno, hsame, hnil⟩
    · -- everything is behind `load_base`
      refine ⟨fun _ => .inl hhas, fun _ e hmem => ?_⟩
      have hbounds := (hst.append hdescStacked).bounds hmem
      exact ⟨hbounds.1, by simp only; omega⟩
    · -- there is only the descriptor
      have hpages : ended = if base - last < ModuleDescriptor.size then base + pageSize else base := by
        rw [he, hsame, pagesEnd, ← hb]
      have hlb : last ≤ base := hb ▸ le_alignTo _ _
      rw [hnil, List.nil_append, sub32_eq hlb (by omega)]
      simp only [List.mem_singleton, forall_eq, hdesc, Extent.Within, hno, false_or]
      split at hpages
      · next hsmall =>
          simp only [ModuleDescriptor.size, pageSize] at *
          omega
      · next hbig =>
          simp only [ModuleDescriptor.size, pageSize] at *
          omega

end Metta.ModuleLoader
