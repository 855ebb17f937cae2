/-
  Metta.ModuleLoader.Contents — what is in memory when a module is loaded.

  Every step of the loader is followed byte by byte.  The image is below the
  last address, so no step changes what a later one reads from it.

    • `loadSections_bytes` — the sections are what the file has,
    • `TableAt`, `loadTables_contents` — the tables are copied,
    • `updateSymbols_spec` — the symbols get their addresses,
    • `relocateTo_outside` — relocations stay in the sections.
-/
import Metta.ModuleLoader.Image

namespace Metta.ModuleLoader

open Metta.Machine

/-! ## §1. Sections. -/

/-- Only the address of a section changes, and only if it gets memory. -/
theorem placeSections_get (base : Nat) {shs : List SectionHeader} {i : Nat} {sh : SectionHeader}
    (h : shs[i]? = some sh) (off : Nat) :
    ∃ v, (placeSections base shs off).1[i]? = some { sh with vaddr := v } ∧
      (sh.isAlloc = false → v = sh.vaddr) := by
  induction shs generalizing i off with
  | nil => cases h
  | cons sh' shs ih =>
      cases halloc : sh'.isAlloc with
      | true =>
          simp only [placeSections, halloc, if_true]
          cases i with
          | zero =>
              obtain rfl : sh' = sh := by simpa using h
              exact ⟨_, rfl, fun hno => by rw [halloc] at hno; cases hno⟩
          | succ i => exact ih (by simpa using h) _
      | false =>
          simp only [placeSections, halloc, Bool.false_eq_true, if_false]
          cases i with
          | zero =>
              obtain rfl : sh' = sh := by simpa using h
              exact ⟨_, rfl, fun _ => rfl⟩
          | succ i => exact ih (by simpa using h) _

theorem length_placeSections (base : Nat) (shs : List SectionHeader) (off : Nat) :
    (placeSections base shs off).1.length = shs.length := by
  induction shs generalizing off with
  | nil => rfl
  | cons sh shs ih =>
      cases halloc : sh.isAlloc with
      | true => simp only [placeSections, halloc, if_true, List.length_cons, ih]
      | false =>
          simp only [placeSections, halloc, Bool.false_eq_true, if_false, List.length_cons, ih]

/-- The source of a section that is copied ends before `c`. -/
def SourceBelow (start c : Nat) (sh : SectionHeader) : Prop :=
  sh.type ≠ shtNobits → start + sh.offset + sh.size ≤ c

/-- What the second loop does for a section. -/
theorem loadSection_byte {start : Nat} {sh : SectionHeader} (halloc : sh.isAlloc = true)
    (hend : sh.vaddr + sh.size < wordSize) (hsrc : SourceBelow start sh.vaddr sh)
    (r : Memory × Nat) {x : Nat} (hx : x < wordSize) :
    (loadSection start r sh).1.byte x
      = if sh.vaddr ≤ x ∧ x < sh.vaddr + sh.size then
          if sh.type = shtNobits then 0 else r.1.byte (start + sh.offset + (x - sh.vaddr))
        else r.1.byte x := by
  rw [loadSection, if_pos halloc]
  by_cases hno : sh.type = shtNobits
  · simp only [if_pos hno]
    exact Memory.byte_clear _ hend hx
  · have hle := hsrc hno
    simp only [if_neg hno]
    rw [add32_eq (by omega)]
    exact Memory.byte_copy _ hend (by omega) (.inl hle) x

theorem loadSection_other {start : Nat} {sh : SectionHeader} (halloc : sh.isAlloc = false)
    (r : Memory × Nat) : loadSection start r sh = r := by
  rw [loadSection, if_neg (by simp [halloc])]

/-- The second loop leaves what is before the sections. -/
theorem loadSections_below {start : Nat} {shs : List SectionHeader} {c e : Nat}
    (hst : Stacked c ((allocs shs).map SectionHeader.part) e) (he : e < wordSize)
    (hsrc : ∀ sh ∈ allocs shs, SourceBelow start c sh) (r : Memory × Nat) {x : Nat} (hx : x < c) :
    (shs.foldl (loadSection start) r).1.byte x = r.1.byte x := by
  induction shs generalizing c r with
  | nil => rfl
  | cons sh shs ih =>
      rw [List.foldl_cons]
      cases halloc : sh.isAlloc with
      | false =>
          rw [allocs_cons_other halloc] at hst hsrc
          rw [loadSection_other halloc, ih hst hsrc r hx]
      | true =>
          rw [allocs_cons_alloc halloc] at hst hsrc
          obtain ⟨hc, hrest⟩ := hst
          simp only [SectionHeader.part] at hc hrest
          have hend := hrest.le
          rw [ih hrest (fun sh' h hno => le_trans (hsrc sh' (List.mem_cons_of_mem _ h) hno) (by omega))
              _ (by omega),
            loadSection_byte halloc (by omega)
              (fun hno => le_trans (hsrc sh List.mem_cons_self hno) hc) r (by omega),
            if_neg (by omega)]

/-- **The sections** are what the file has. -/
theorem loadSections_bytes {start : Nat} {shs : List SectionHeader} {c e : Nat}
    (hst : Stacked c ((allocs shs).map SectionHeader.part) e) (he : e < wordSize)
    (hsrc : ∀ sh ∈ allocs shs, SourceBelow start c sh) (r : Memory × Nat) {sh : SectionHeader}
    (hsh : sh ∈ allocs shs) {k : Nat} (hk : k < sh.size) :
    (shs.foldl (loadSection start) r).1.byte (sh.vaddr + k)
      = if sh.type = shtNobits then 0 else r.1.byte (start + sh.offset + k) := by
  induction shs generalizing c r with
  | nil => cases hsh
  | cons sh' shs ih =>
      rw [List.foldl_cons]
      -- the sections in the order of the file; `c` is where the next one may begin
      cases halloc : sh'.isAlloc with
      | false =>
          rw [allocs_cons_other halloc] at hst hsrc hsh
          rw [loadSection_other halloc, ih hst hsrc r hsh]
      | true =>
          rw [allocs_cons_alloc halloc] at hst hsrc hsh
          obtain ⟨hc, hrest⟩ := hst
          simp only [SectionHeader.part] at hc hrest
          have hend := hrest.le
          have hsrc' : ∀ sh ∈ allocs shs, SourceBelow start (sh'.vaddr + sh'.size) sh :=
            fun sh h hno => le_trans (hsrc sh (List.mem_cons_of_mem _ h) hno) (by omega)
          have hhead : SourceBelow start sh'.vaddr sh' :=
            fun hno => le_trans (hsrc sh' List.mem_cons_self hno) hc
          rcases List.mem_cons.mp hsh with rfl | hsh
          · -- the other sections are behind this one
            rw [loadSections_below hrest he hsrc' _ (by omega),
              loadSection_byte halloc (by omega) hhead r (by omega), if_pos (by omega),
              Nat.add_sub_cancel_left]
          · -- the file is before this one
            rw [ih hrest hsrc' _ hsh]
            split
            · rfl
            · next hno =>
                have hle := hsrc sh (List.mem_cons_of_mem _ hsh) hno
                rw [loadSection_byte halloc (by omega) hhead r (by omega), if_neg (by omega)]

/-! ## §2. Tables. -/

/-- At `a` there is the header of a table and then its data, which is what `file` has at
`source`. -/
structure TableAt (m : Memory) (loadBase : Nat) (sh : SectionHeader) (file : Memory)
    (source a : Nat) : Prop where
  offset : m.load32 (a + 16) = sub32 (a + 40) loadBase
  size : m.load32 (a + 20) = sh.size % wordSize
  entsize : m.load32 (a + 36) = sh.entsize % wordSize
  data : ∀ k < sh.size, m.byte (a + 40 + k) = file.byte (source + k)

/-- A table stays where nothing is written, and when its file does. -/
theorem TableAt.congr {m m' file file' : Memory} {loadBase source a : Nat} {sh : SectionHeader}
    (h : TableAt m loadBase sh file source a)
    (hm : ∀ x, a ≤ x → x < a + 40 + sh.size → m'.byte x = m.byte x)
    (hfile : ∀ k < sh.size, file'.byte (source + k) = file.byte (source + k)) :
    TableAt m' loadBase sh file' source a where
  offset := by rw [Memory.load32_congr fun x h1 h2 => hm x (by omega) (by omega), h.offset]
  size := by rw [Memory.load32_congr fun x h1 h2 => hm x (by omega) (by omega), h.size]
  entsize := by rw [Memory.load32_congr fun x h1 h2 => hm x (by omega) (by omega), h.entsize]
  data k hk := by rw [hm _ (by omega) (by omega), h.data k hk, hfile k hk]

theorem SectionHeader.length_bytes (sh : SectionHeader) : sh.bytes.length = 40 := rfl

/-- What `loadTable` writes. -/
theorem loadTable_spec (loadBase i : Nat) (sh : SectionHeader) (mem : Memory) {last : Nat}
    {module : ElfParser} (hfits : last + 40 + sh.size < wordSize)
    (hsrc : module.start + sh.offset + sh.size ≤ last) :
    (∀ x < last, (loadTable loadBase i sh (mem, last, module)).1.byte x = mem.byte x) ∧
    TableAt (loadTable loadBase i sh (mem, last, module)).1 loadBase sh mem
      (module.start + sh.offset) last := by
  have hbyte : ∀ x, (x < last + 16 ∨ last + 20 ≤ x) →
      (loadTable loadBase i sh (mem, last, module)).1.byte x
        = if last + 40 ≤ x ∧ x < last + 40 + sh.size then
            mem.byte (module.start + sh.offset + (x - (last + 40)))
          else (mem.write last sh.bytes).byte x := by
    intro x hx
    simp only [loadTable]
    rw [add32_eq (show last + 40 < wordSize by omega), add32_eq (show last + 16 < wordSize by omega),
      Memory.byte_store32_ne _ _ _ _ (by omega),
      add32_eq (show module.start + sh.offset < wordSize by omega),
      Memory.byte_copy _ hfits (by omega) (.inl (by omega))]
    split
    · rw [Memory.byte_write_ne _ (by rw [sh.length_bytes]; omega)]
    · rfl
  have hheader : HasBytes (mem.write last sh.bytes) last sh.bytes :=
    fun j hj => Memory.byte_write_same _ _ _ hj
  have hword : ∀ j v, [sh.name, sh.type, sh.flags, sh.vaddr, sh.offset, sh.size, sh.link, sh.info,
      sh.addralign, sh.entsize][j]? = some v → 5 ≤ j →
      (loadTable loadBase i sh (mem, last, module)).1.load32 (last + 4 * j) = v % wordSize := by
    intro j v hj hlow
    have hlt : j < 10 := (List.getElem?_eq_some_iff.mp hj).1
    rw [← (hheader.flatMap length_le32 hj).load32]
    exact Memory.load32_congr fun x h1 h2 => by rw [hbyte x (by omega), if_neg (by omega)]
  refine ⟨fun x hx => ?_, ?_, hword 5 _ rfl (by omega), hword 9 _ rfl (by omega), fun k hk => ?_⟩
  · rw [hbyte x (by omega), if_neg (by omega), Memory.byte_write_ne _ (.inl hx)]
  · simp only [loadTable]
    rw [add32_eq (show last + 40 < wordSize by omega), add32_eq (show last + 16 < wordSize by omega),
      Memory.load32_store32_same _ _ _ (sub32_lt _ _)]
  · rw [hbyte _ (by omega), if_pos (by omega), Nat.add_sub_cancel_left]

/-- A table is there and wanted, or nothing is done. -/
theorem loadTableIf_cases (loadBase : Nat) (index : Option Nat) (wanted : SectionHeader → Bool)
    (r : Memory × Nat × ElfParser) :
    (loadTableIf loadBase index wanted r = (0, r) ∧
      ∀ i sh, index = some i → r.2.2.sections[i]? = some sh → wanted sh = false) ∨
    ∃ i sh, index = some i ∧ r.2.2.sections[i]? = some sh ∧ wanted sh = true ∧
      loadTableIf loadBase index wanted r = (r.2.1, loadTable loadBase i sh r) := by
  cases index with
  | none => exact .inl ⟨rfl, fun i sh hi => by cases hi⟩
  | some i =>
      cases hsh : r.2.2.sections[i]? with
      | none =>
          refine .inl ⟨by simp only [loadTableIf, hsh], fun j sh hj hget => ?_⟩
          cases hj
          rw [hsh] at hget
          cases hget
      | some sh =>
          cases hwant : wanted sh with
          | true =>
              exact .inr ⟨i, sh, rfl, hsh, hwant, by simp only [loadTableIf, hsh, hwant, if_true]⟩
          | false =>
              refine .inl ⟨by simp [loadTableIf, hsh, hwant], fun j sh' hj hget => ?_⟩
              cases hj
              rw [hsh] at hget
              cases hget
              exact hwant

/-- A table that is wanted is loaded where the cursor is; the other headers stay. -/
theorem loadTableIf_contents (loadBase : Nat) (index : Option Nat) (wanted : SectionHeader → Bool)
    (mem : Memory) {last : Nat} {module : ElfParser} {a : Nat} {mem' : Memory} {last' : Nat}
    {module' : ElfParser}
    (h : loadTableIf loadBase index wanted (mem, last, module) = (a, mem', last', module'))
    (hfits : last + tableBytes module index wanted < wordSize)
    (hsrc : ∀ i sh, index = some i → module.sections[i]? = some sh → wanted sh = true →
      module.start + sh.offset + sh.size ≤ last) :
    (∀ x < last, mem'.byte x = mem.byte x) ∧
    (∀ i sh, index = some i → module.sections[i]? = some sh → wanted sh = true →
      a = last ∧ TableAt mem' loadBase sh mem (module.start + sh.offset) last ∧
      module'.sections[i]? = some { sh with offset := sub32 (last + 40) module.start }) ∧
    (∀ i, index ≠ some i → module'.sections[i]? = module.sections[i]?) ∧
    module' = { module with sections := module'.sections } ∧
    (a ≠ 0 → ∃ i sh, index = some i ∧ module.sections[i]? = some sh ∧ wanted sh = true) := by
  rcases loadTableIf_cases loadBase index wanted (mem, last, module) with
    ⟨heq, hno⟩ | ⟨i, sh, rfl, hsh, hwant, heq⟩
  · -- no table of the kind: nothing is copied
    rw [heq] at h
    cases h
    refine ⟨fun _ _ => rfl, fun i sh hi hsh hw => ?_, fun _ _ => rfl, rfl, fun h => absurd rfl h⟩
    rw [hno i sh hi hsh] at hw
    cases hw
  · -- the table is copied behind `last`, and its header says where
    simp only at hsh
    have hlen : i < module.sections.length := (List.getElem?_eq_some_iff.mp hsh).1
    have hbytes : tableBytes module (some i) wanted = 40 + sh.size := by
      simp [tableBytes, hsh, hwant]
    rw [hbytes] at hfits
    obtain ⟨hbelow, htable⟩ := loadTable_spec loadBase i sh mem
      (show last + 40 + sh.size < wordSize by omega) (hsrc i sh rfl hsh hwant)
    rw [heq] at h
    obtain ⟨ha, hr⟩ := Prod.mk.inj h
    rw [hr] at hbelow htable
    obtain ⟨moved, hmoved⟩ : ∃ moved,
      ({ sh with offset := sub32 (last + 40) module.start } : SectionHeader) = moved := ⟨_, rfl⟩
    have hmodule : { module with sections := module.sections.set i moved } = module' := by
      have hlast := (Prod.mk.inj (Prod.mk.inj hr).2).2
      rwa [add32_eq (by omega), hmoved] at hlast
    refine ⟨hbelow, fun j sh' hj hget _ => ?_, fun j hj => ?_, by rw [← hmodule],
      fun _ => ⟨i, sh, rfl, hsh, hwant⟩⟩
    · -- the header that was moved
      cases hj
      obtain rfl : sh = sh' := by simpa [hsh] using hget
      refine ⟨ha.symm, htable, ?_⟩
      rw [← hmodule, hmoved]
      exact List.getElem?_set_self hlen
    · rw [← hmodule]
      exact List.getElem?_set_ne fun hij => hj (by rw [hij])

/-- The tables of an image when they are loaded: they are copied, and the header of the
symbol table in the image goes to the copy. -/
structure TablesLoaded (loadBase : Nat) (mem : Memory) (last : Nat) (module known : ElfParser)
    (t : Tables) : Prop where
  below : ∀ x < tablesStart last t.module, t.mem.byte x = mem.byte x
  symbols : ∀ (i : Nat) (sh : SectionHeader), known.symtab = some i →
    module.sections[i]? = some sh → 0 < sh.size →
    t.symtabStart = tablesStart last t.module ∧ symtabBytes t.module = 40 + sh.size ∧
    TableAt t.mem loadBase sh mem (module.start + sh.offset) t.symtabStart ∧
    t.module.sections[i]? = some { sh with offset := sub32 (t.symtabStart + 40) module.start }
  strings : ∀ (i : Nat) (sh : SectionHeader), known.strtab = some i →
    module.sections[i]? = some sh →
    t.strtabStart = tablesStart last t.module + symtabBytes t.module ∧
    strtabBytes t.module = 40 + sh.size ∧
    TableAt t.mem loadBase sh mem (module.start + sh.offset) t.strtabStart
  other : ∀ i, known.symtab ≠ some i → known.strtab ≠ some i →
    t.module.sections[i]? = module.sections[i]?
  same : t.module = { known with sections := t.module.sections }
  hasSymbols : t.symtabStart ≠ 0 → ∃ i sh, known.symtab = some i ∧
    module.sections[i]? = some sh ∧ 0 < sh.size
  hasStrings : t.strtabStart ≠ 0 → ∃ i sh, known.strtab = some i ∧ module.sections[i]? = some sh

/-- **The tables** of an image are loaded. -/
theorem loadTables_contents {loadBase : Nat} {mem : Memory} {last : Nat} {module : ElfParser}
    {t : Tables} (ht : loadTables loadBase mem last module = t)
    (hfits : tablesEnd last t.module < wordSize) {known : ElfParser} (hknown : module.known mem = known)
    (hsrc : ∀ i sh, known.symtab = some i ∨ known.strtab = some i → module.sections[i]? = some sh →
      module.start + sh.offset + sh.size ≤ last)
    (hne : ∀ i, known.symtab = some i → known.strtab ≠ some i) :
    TablesLoaded loadBase mem last module known t := by
  obtain ⟨hshape, start, mem1, last1, module1, hstart, hshape1, hlast1, hlast2, h1, h2⟩ :=
    loadTables_cases ht hfits hknown
  have hsections : known.sections = module.sections := hknown ▸ module.known_sections mem
  have hstart' : known.start = module.start := hknown ▸ (module.known_start mem).1
  have hle : last ≤ start := hstart ▸ le_tablesStart last t.module
  rw [tablesEnd, ← hstart] at hfits
  have hbytes1 : tableBytes known known.symtab (·.size > 0) = symtabBytes t.module :=
    hshape.symtabBytes.symm
  have hbytes2 : tableBytes module1 known.strtab (fun _ => true) = strtabBytes t.module :=
    (hshape1.tableBytes _ fun _ => rfl).trans hshape.strtabBytes.symm
  -- first the symbols, then the strings behind them
  obtain ⟨hbelow1, htable1, hother1, hmodule1, hsome1⟩ := loadTableIf_contents _ _ _ _ h1
    (by rw [hbytes1]; omega)
    (fun i sh hi hsh _ => by
      rw [hstart']
      exact le_trans (hsrc i sh (.inl hi) (hsections ▸ hsh)) hle)
  have hsame : ∀ i, known.strtab = some i → module1.sections[i]? = module.sections[i]? :=
    fun i hi => (hother1 i fun hsym => hne i hsym hi).trans (by rw [hsections])
  have hstart1 : module1.start = module.start := by
    rw [hmodule1]
    exact hstart'
  obtain ⟨hbelow2, htable2, hother2, hmodule2, hsome2⟩ := loadTableIf_contents _ _ _ _ h2
    (by rw [hbytes2]; omega)
    (fun i sh hi hsh _ => by
      rw [hstart1]
      exact le_trans (hsrc i sh (.inr hi) ((hsame i hi).symm.trans hsh)) (by omega))
  refine ⟨fun x hx => ?_, fun i sh hi hsh hpos => ?_, fun i sh hi hsh => ?_, fun i hsym hstr => ?_,
    ?_, fun h => ?_, fun h => ?_⟩
  · rw [hbelow2 x (by omega), hbelow1 x (by omega)]
  · obtain ⟨ha, htable, hheader⟩ := htable1 i sh hi (hsections ▸ hsh) (by simpa using hpos)
    have hbytes : symtabBytes t.module = 40 + sh.size := by
      rw [← hbytes1, hi]
      simp [tableBytes, hsections, hsh, hpos]
    rw [hstart'] at htable hheader
    rw [ha, ← hstart]
    refine ⟨rfl, hbytes, htable.congr (fun x _ hx => hbelow2 x (by omega)) fun _ _ => rfl, ?_⟩
    rw [hother2 i (hne i hi), hheader]
  · obtain ⟨ha, htable, -⟩ := htable2 i sh hi ((hsame i hi).trans hsh) rfl
    have hsource := hsrc i sh (.inr hi) hsh
    -- the strings are behind the symbols, so their header is not touched
    have hbytes : strtabBytes t.module = 40 + sh.size := by
      rw [← hbytes2, hi]
      simp [tableBytes, hsame i hi, hsh]
    rw [hstart1] at htable
    rw [ha, ← hstart]
    exact ⟨hlast1, hbytes, htable.congr (fun _ _ _ => rfl) fun k hk => (hbelow1 _ (by omega)).symm⟩
  · rw [hother2 i hstr, hother1 i hsym, hsections]
  · rw [hmodule2, hmodule1]
  · obtain ⟨i, sh, hi, hsh, hpos⟩ := hsome1 h
    exact ⟨i, sh, hi, hsections ▸ hsh, by simpa using hpos⟩
  · obtain ⟨i, sh, hi, hsh, -⟩ := hsome2 h
    exact ⟨i, sh, hi, (hsame i hi).symm.trans hsh⟩

/-! ## §3. Sections and tables. -/

/-- Sections in order are apart. -/
theorem stacked_sections {shs : List SectionHeader} {c e : Nat}
    (hst : Stacked c ((allocs shs).map SectionHeader.part) e) {i j : Nat} {a b : SectionHeader}
    (hi : shs[i]? = some a) (hj : shs[j]? = some b) (ha : a.isAlloc = true) (hb : b.isAlloc = true)
    (hij : i < j) : a.vaddr + a.size ≤ b.vaddr := by
  induction shs generalizing c i j with
  | nil => cases hi
  | cons sh shs ih =>
      obtain ⟨j, rfl⟩ : ∃ j', j = j' + 1 := ⟨j - 1, by omega⟩
      have hj : shs[j]? = some b := by simpa using hj
      cases i with
      | zero =>
          obtain rfl : sh = a := by simpa using hi
          rw [allocs_cons_alloc ha] at hst
          have hmem : b.part ∈ (allocs shs).map SectionHeader.part :=
            List.mem_map_of_mem (List.mem_filter.mpr ⟨List.mem_of_getElem? hj, hb⟩)
          exact (hst.2.bounds hmem).1
      | succ i =>
          have hi : shs[i]? = some a := by simpa using hi
          cases halloc : sh.isAlloc with
          | true =>
              rw [allocs_cons_alloc halloc] at hst
              exact ih hst.2 hi hj (by omega)
          | false =>
              rw [allocs_cons_other halloc] at hst
              exact ih hst hi hj (by omega)

/-- Every header of the placed sections is one of the image, but for the address. -/
theorem placeSections_back {base : Nat} {shs : List SectionHeader} {off i : Nat}
    {sh' : SectionHeader} (h : (placeSections base shs off).1[i]? = some sh') :
    ∃ sh v, shs[i]? = some sh ∧ sh' = { sh with vaddr := v } := by
  have hlt : i < shs.length := by
    rw [← length_placeSections base shs off]
    exact (List.getElem?_eq_some_iff.mp h).1
  obtain ⟨v, hv, -⟩ := placeSections_get base (List.getElem?_eq_getElem hlt) off
  rw [h] at hv
  exact ⟨_, v, List.getElem?_eq_getElem hlt, Option.some.inj hv⟩

theorem placeSections_findIdx (base : Nat) (shs : List SectionHeader) (off type : Nat) :
    (placeSections base shs off).1.findIdx? (·.type == type) = shs.findIdx? (·.type == type) := by
  induction shs generalizing off with
  | nil => rfl
  | cons sh shs ih =>
      cases halloc : sh.isAlloc with
      | true => simp only [placeSections, halloc, if_true, List.findIdx?_cons, ih]
      | false =>
          simp only [placeSections, halloc, Bool.false_eq_true, if_false, List.findIdx?_cons, ih]

/-- The module ends below `2 ^ 32`. -/
structure Fits (s : Loader) (elf : ElfParser) (t : Tables) : Prop where
  base : alignTo pageSize s.lastAvailableAddress < wordSize
  pageAlignUp : pageAlignUp s.lastAvailableAddress = alignTo pageSize s.lastAvailableAddress
  sections : sectionsEnd s.lastAvailableAddress elf.sections ≤ t.last
  ended : endOfModule t.last = pagesEnd t.last
  inMemory : pagesEnd t.last < wordSize

theorem Fits.last {s : Loader} {elf : ElfParser} {t : Tables} (hf : Fits s elf t) :
    t.last + ModuleDescriptor.size < wordSize :=
  lt_of_le_of_lt (add_size_le_pagesEnd _) hf.inMemory

/-- A module whose plan ends below `2 ^ 32` does. -/
theorem Loader.fits (s : Loader) {elf : ElfParser} (hok : ∀ sh ∈ elf.sections, sh.AlignOk)
    {t : Tables} (ht : s.loadParts elf = t)
    (hfits : plannedEnd s.lastAvailableAddress elf.sections t.module < wordSize) : Fits s elf t := by
  obtain ⟨hbase, hlast, -, -⟩ := loadParts_spec s hok ht hfits
  rw [plannedEnd, ← hlast] at hfits
  have hstart := le_tablesStart (sectionsEnd s.lastAvailableAddress elf.sections) t.module
  have hsections : sectionsEnd s.lastAvailableAddress elf.sections ≤ t.last := by
    rw [hlast, tablesEnd]
    omega
  have hle := le_trans (le_sectionsEnd s.lastAvailableAddress elf.sections) hsections
  have hmono : alignTo pageSize s.lastAvailableAddress ≤ alignTo pageSize t.last :=
    alignTo_mono (by decide) hle
  have hpages := alignTo_le_pagesEnd t.last
  exact ⟨by omega, hbase, hsections, endOfModule_eq hfits, hfits⟩

/-- What is so when the sections of an image are in memory. -/
structure SectionsLoaded (s : Loader) (elf : ElfParser) (base : Nat) (mem : Memory) : Prop where
  stacked : Stacked base ((allocs (placeSections base elf.sections 0).1).map SectionHeader.part)
    (placedEnd base (items elf.sections))
  below : ∀ x < base, mem.byte x = s.mem.byte x
  bytes : ∀ sh ∈ allocs (placeSections base elf.sections 0).1, ∀ k < sh.size,
    mem.byte (sh.vaddr + k) = elf.fileByte s.mem sh k
  bounds : ∀ sh ∈ allocs (placeSections base elf.sections 0).1,
    base ≤ sh.vaddr ∧ sh.vaddr + sh.size ≤ sectionsEnd s.lastAvailableAddress elf.sections

/-- The headers of an image when it is loaded: addresses and offsets have changed. -/
structure Headers (s : Loader) (elf : ElfParser) (t : Tables) : Prop where
  start : t.module.start = elf.start
  shstrndx : t.module.shstrndx = elf.shstrndx
  length : t.module.sections.length = elf.sections.length
  symtab : t.module.symtab = elf.sectionHeaderByType shtSymtab
  header : ∀ (i : Nat) (sh : SectionHeader), elf.sections[i]? = some sh → ∃ v off,
    (placeSections (alignTo pageSize s.lastAvailableAddress) elf.sections 0).1[i]?
      = some { sh with vaddr := v } ∧
    t.module.sections[i]? = some { sh with vaddr := v, offset := off } ∧
    (sh.type ≠ shtSymtab → sh.type ≠ shtStrtab → off = sh.offset)

/-- What is so when the sections and the tables of an image are in memory. -/
structure Parts (s : Loader) (elf : ElfParser) (t : Tables) : Prop extends Headers s elf t where
  below : ∀ x < s.lastAvailableAddress, t.mem.byte x = s.mem.byte x
  bounds : ∀ (i : Nat) (sh : SectionHeader), t.module.sections[i]? = some sh → sh.isAlloc = true →
    alignTo pageSize s.lastAvailableAddress ≤ sh.vaddr ∧
    sh.vaddr + sh.size ≤ sectionsEnd s.lastAvailableAddress elf.sections
  ordered : ∀ (i j : Nat) (a b : SectionHeader), t.module.sections[i]? = some a →
    t.module.sections[j]? = some b → a.isAlloc = true → b.isAlloc = true → i < j →
    a.vaddr + a.size ≤ b.vaddr
  bytes : ∀ (i : Nat) (sh sh' : SectionHeader), elf.sections[i]? = some sh → sh.isAlloc = true →
    t.module.sections[i]? = some sh' → ∀ k < sh.size,
      t.mem.byte (sh'.vaddr + k) = elf.fileByte s.mem sh k
  symbols : ∀ (i : Nat) (sh : SectionHeader), elf.sectionHeaderByType shtSymtab = some i →
    elf.sections[i]? = some sh → 0 < sh.size →
    sectionsEnd s.lastAvailableAddress elf.sections ≤ t.symtabStart ∧
    t.symtabStart + 40 + sh.size ≤ t.last ∧
    TableAt t.mem (alignTo pageSize s.lastAvailableAddress) sh s.mem (elf.start + sh.offset)
      t.symtabStart ∧
    ∃ sh', t.module.sections[i]? = some sh' ∧ sh'.offset = sub32 (t.symtabStart + 40) elf.start
  strings : ∀ (j : Nat) (sh : SectionHeader), t.module.strtab = some j →
    elf.sections[j]? = some sh →
    sectionsEnd s.lastAvailableAddress elf.sections ≤ t.strtabStart ∧
    (∀ (i : Nat) (symtab : SectionHeader), elf.sectionHeaderByType shtSymtab = some i →
      elf.sections[i]? = some symtab → 0 < symtab.size →
      t.symtabStart + 40 + symtab.size ≤ t.strtabStart) ∧
    t.strtabStart + 40 + sh.size ≤ t.last ∧
    TableAt t.mem (alignTo pageSize s.lastAvailableAddress) sh s.mem (elf.start + sh.offset)
      t.strtabStart ∧
    elf.IsStrtab s.mem sh
  hasSymbols : t.symtabStart ≠ 0 → ∃ i sh, elf.sectionHeaderByType shtSymtab = some i ∧
    elf.sections[i]? = some sh ∧ 0 < sh.size
  hasStrings : t.strtabStart ≠ 0 → ∃ j sh, t.module.strtab = some j ∧ elf.sections[j]? = some sh

namespace ElfParser.WellFormed

variable {s : Loader} {elf : ElfParser} {length : Nat}

/-- What the loader copies for a section is in the image. -/
theorem sourceBelow (hw : elf.WellFormed s.mem length) {base off : Nat}
    (hbelow : elf.start + length ≤ base) {sh : SectionHeader}
    (hsh : sh ∈ allocs (placeSections base elf.sections off).1) : SourceBelow elf.start base sh := by
  intro hno
  obtain ⟨i, hi⟩ := List.mem_iff_getElem?.mp (List.mem_of_mem_filter hsh)
  obtain ⟨sh', v, hsh', rfl⟩ := placeSections_back hi
  have hdata := hw.data sh' (List.mem_of_getElem? hsh') hno
  simp only
  omega

/-- The section that is found as `.strtab` has this name in the image. -/
theorem isStrtab (hw : elf.WellFormed s.mem length) {base off : Nat}
    (hbelow : elf.start + length ≤ base) {mem : Memory}
    (hmem : ∀ x < base, mem.byte x = s.mem.byte x) {placed : ElfParser}
    (hplaced : placed = { elf with sections := (placeSections base elf.sections off).1 }) {i : Nat}
    (h : (placed.known mem).strtab = some i) {sh : SectionHeader}
    (hsh : elf.sections[i]? = some sh) : elf.IsStrtab s.mem sh := by
  have hfound : placed.sectionHeaderByName mem strtabName = some i := by
    rw [← h, known, sectionStringTable, sectionSymbolTable]
    simp only [hplaced, hw.symtab, if_true, hw.strtab]
    rfl
  rw [sectionHeaderByName] at hfound
  split at hfound
  · cases hfound
  · next shstrtab' htab' =>
      obtain ⟨hlt, hname, -⟩ := List.findIdx?_eq_some_iff_getElem.mp hfound
      obtain ⟨sh', v, hsh', heq⟩ := placeSections_back
        (show (placeSections base elf.sections off).1[i]? = some placed.sections[i] by
          rw [← List.getElem?_eq_getElem hlt, hplaced])
      obtain rfl := Option.some.inj (hsh.symm.trans hsh')
      obtain ⟨shstrtab, v', htab, rfl⟩ : ∃ shstrtab v', elf.sectionShstringTable = some shstrtab ∧
          shstrtab' = { shstrtab with vaddr := v' } := by
        rw [sectionShstringTable, hplaced] at htab'
        rw [sectionShstringTable]
        split at htab'
        · cases htab'
        · next hno =>
            rw [if_neg hno]
            exact placeSections_back htab'
      obtain ⟨text, hbytes, hin, -⟩ := hw.names shstrtab htab sh (List.mem_of_getElem? hsh)
      have hmemory := hw.inMemory
      rw [heq, strtabPointer, hplaced,
        add32_eq (show elf.start + shstrtab.offset < wordSize by omega),
        add32_eq (by simp only; omega), cstringEquals_iff] at hname
      have hbytes' : HasBytes mem (elf.start + shstrtab.offset + sh.name) text.terminated :=
        fun k hk => by rw [hmem _ (by omega), hbytes k hk]
      refine ⟨shstrtab, htab, ?_⟩
      rw [hbytes'.text_unique hname] at hbytes
      exact hbytes

theorem known_symtab_eq (hw : elf.WellFormed s.mem length) (base off : Nat) (mem : Memory) :
    ({ elf with sections := (placeSections base elf.sections off).1 }.known mem).symtab
      = elf.sectionHeaderByType shtSymtab := by
  rw [known_symtab, sectionSymbolTable, if_pos hw.symtab, sectionHeaderByType, sectionHeaderByType]
  exact placeSections_findIdx base elf.sections off shtSymtab

/-- The tables are in the image, and they are two. -/
theorem tables (hw : elf.WellFormed s.mem length) {base off : Nat}
    (hbelow : elf.start + length ≤ base) {mem : Memory}
    (hmem : ∀ x < base, mem.byte x = s.mem.byte x) {placed : ElfParser}
    (hplaced : placed = { elf with sections := (placeSections base elf.sections off).1 }) :
    (∀ (i : Nat) (sh : SectionHeader),
      (placed.known mem).symtab = some i ∨ (placed.known mem).strtab = some i →
      elf.sections[i]? = some sh → sh.offset + sh.size ≤ length) ∧
    ∀ i, (placed.known mem).symtab = some i → (placed.known mem).strtab ≠ some i := by
  have hsym : (placed.known mem).symtab = elf.sectionHeaderByType shtSymtab := by
    rw [hplaced]
    exact hw.known_symtab_eq _ _ _
  have hstr : ∀ (i : Nat) (sh : SectionHeader), (placed.known mem).strtab = some i →
      elf.sections[i]? = some sh → sh.type = shtStrtab := fun i sh hi hsh =>
    hw.type_of_isStrtab (List.mem_of_getElem? hsh) (hw.isStrtab hbelow hmem hplaced hi hsh)
  refine ⟨fun i sh hi hsh => hw.data sh (List.mem_of_getElem? hsh) ?_, fun i hi hi' => ?_⟩
  · rcases hi with hi | hi
    · rw [type_of_byType (hsym ▸ hi) hsh]
      decide
    · rw [hstr i sh hi hsh]
      decide
  · rw [hsym] at hi
    have hlt : i < elf.sections.length := (List.findIdx?_eq_some_iff_getElem.mp hi).1
    have htype := hstr i _ hi' (List.getElem?_eq_getElem hlt)
    rw [type_of_byType hi (List.getElem?_eq_getElem hlt)] at htype
    exact absurd htype (by decide)

/-- How an image below the last address is loaded: first its sections, then its tables. -/
theorem loaded (hw : elf.WellFormed s.mem length)
    (hbelow : elf.start + length ≤ s.lastAvailableAddress) {t : Tables} (ht : s.loadParts elf = t)
    (hfits : plannedEnd s.lastAvailableAddress elf.sections t.module < wordSize) {base : Nat}
    (hbase : base = alignTo pageSize s.lastAvailableAddress) {placed : ElfParser}
    (hplaced : placed = { elf with sections := (placeSections base elf.sections 0).1 }) :
    ∃ mem, SectionsLoaded s elf base mem ∧ SameShape (placed.known mem) t.module ∧
      TablesLoaded base mem (sectionsEnd s.lastAvailableAddress elf.sections) placed
        (placed.known mem) t := by
  obtain ⟨-, hend, htables, sections, off, mem, hplace, hparts, -, hmem, hload⟩ :=
    loadParts_cases s hw.align ht hfits rfl rfl
  rw [← hbase] at hend hplace hparts hload
  have hle : s.lastAvailableAddress ≤ base := hbase ▸ le_alignTo _ _
  have hleEnd := le_sectionsEnd s.lastAvailableAddress elf.sections
  obtain rfl : (placeSections base elf.sections 0).1 = sections := by rw [hplace]
  rw [← hplaced] at hload
  have hst : Stacked base ((allocs (placeSections base elf.sections 0).1).map SectionHeader.part)
      (placedEnd base (items elf.sections)) := hparts ▸ place_stacked _ _
  have hsrc : ∀ sh ∈ allocs (placeSections base elf.sections 0).1, SourceBelow elf.start base sh :=
    fun sh hsh => hw.sourceBelow (by omega) hsh
  have hmemory : ∀ x < base, mem.byte x = s.mem.byte x := by
    intro x hx
    have := loadSections_below hst hend hsrc (s.mem, add32 s.lastAvailableAddress off) hx
    rwa [hmem] at this
  obtain ⟨hdata, hne⟩ := hw.tables (by omega) hmemory hplaced
  obtain ⟨hshape, -⟩ := loadTables_cases hload htables rfl
  refine ⟨mem, ⟨hst, hmemory, fun sh hsh k hk => ?_, fun sh hsh => ?_⟩, hshape,
    loadTables_contents hload htables rfl (fun i sh hi hsh => ?_) hne⟩
  · have := loadSections_bytes hst hend hsrc (s.mem, add32 s.lastAvailableAddress off) hsh hk
    rwa [hmem] at this
  · have hpart := hst.bounds (List.mem_map_of_mem hsh)
    have hsome : items elf.sections ≠ [] := by
      intro hnil
      rw [hnil] at hparts
      rw [List.map_eq_nil_iff.mp hparts] at hsh
      cases hsh
    rw [sectionsEnd, if_neg hsome, ← hbase]
    exact hpart
  · rw [hplaced] at hsh ⊢
    obtain ⟨sh0, v, hsh0, rfl⟩ := placeSections_back hsh
    have := hdata i sh0 hi hsh0
    simp only
    omega

/-- The headers of an image that is loaded. -/
theorem headers (hw : elf.WellFormed s.mem length)
    (hbelow : elf.start + length ≤ s.lastAvailableAddress) {t : Tables} {base : Nat}
    (hbase : base = alignTo pageSize s.lastAvailableAddress) {placed : ElfParser}
    (hplaced : placed = { elf with sections := (placeSections base elf.sections 0).1 })
    {mem : Memory} (hsec : SectionsLoaded s elf base mem)
    (hshape : SameShape (placed.known mem) t.module) {last : Nat}
    (htab : TablesLoaded base mem last placed (placed.known mem) t) : Headers s elf t := by
  have hle : s.lastAvailableAddress ≤ base := hbase ▸ le_alignTo _ _
  have hsections : (placed.known mem).sections = (placeSections base elf.sections 0).1 := by
    rw [known_sections, hplaced]
  have hsym : (placed.known mem).symtab = elf.sectionHeaderByType shtSymtab := by
    rw [hplaced]
    exact hw.known_symtab_eq _ _ _
  obtain ⟨hstart, hndx⟩ := placed.known_start mem
  refine ⟨?_, ?_, ?_, hshape.symtab.trans hsym, fun i sh hsh => ?_⟩
  · rw [htab.same]
    exact hstart.trans (by rw [hplaced])
  · rw [htab.same]
    exact hndx.trans (by rw [hplaced])
  · rw [hshape.length, hsections, length_placeSections]
  · obtain ⟨v, hv, -⟩ := placeSections_get base hsh 0
    obtain ⟨off, hoff⟩ := hshape.header (by rw [hsections]; exact hv)
    rw [← hbase]
    refine ⟨v, off, hv, hoff, fun h1 h2 => ?_⟩
    have hpsec : placed.sections[i]? = some { sh with vaddr := v } := by rw [hplaced]; exact hv
    have hsame : t.module.sections[i]? = placed.sections[i]? :=
      htab.other i (fun hi => h1 (type_of_byType (hsym ▸ hi) hsh)) fun hi =>
        h2 (hw.type_of_isStrtab (List.mem_of_getElem? hsh)
          (hw.isStrtab (by omega) hsec.below hplaced hi hsh))
    rw [hoff, hpsec] at hsame
    have := congrArg SectionHeader.offset (Option.some.inj hsame)
    exact this

end ElfParser.WellFormed

/-- Every header in memory is one of the image, but for the address and the offset. -/
theorem Headers.back {s : Loader} {elf : ElfParser} {t : Tables} (h : Headers s elf t) {i : Nat}
    {sh' : SectionHeader} (hsh' : t.module.sections[i]? = some sh') :
    ∃ sh v off, elf.sections[i]? = some sh ∧
      (placeSections (alignTo pageSize s.lastAvailableAddress) elf.sections 0).1[i]?
        = some { sh with vaddr := v } ∧
      sh' = { sh with vaddr := v, offset := off } := by
  have hlt : i < elf.sections.length := h.length ▸ (List.getElem?_eq_some_iff.mp hsh').1
  obtain ⟨v, off, hv, ht', -⟩ := h.header i _ (List.getElem?_eq_getElem hlt)
  rw [hsh'] at ht'
  exact ⟨_, v, off, List.getElem?_eq_getElem hlt, hv, Option.some.inj ht'⟩

namespace ElfParser.WellFormed

variable {s : Loader} {elf : ElfParser} {length : Nat}

/-- **Sections and tables** of an image below the last address. -/
theorem parts (hw : elf.WellFormed s.mem length)
    (hbelow : elf.start + length ≤ s.lastAvailableAddress) {t : Tables} (ht : s.loadParts elf = t)
    (hfits : plannedEnd s.lastAvailableAddress elf.sections t.module < wordSize) : Parts s elf t := by
  obtain ⟨base, hbase⟩ : ∃ base, base = alignTo pageSize s.lastAvailableAddress := ⟨_, rfl⟩
  obtain ⟨placed, hplaced⟩ : ∃ placed : ElfParser,
    placed = { elf with sections := (placeSections base elf.sections 0).1 } := ⟨_, rfl⟩
  obtain ⟨mem, hsec, hshape, htab⟩ := hw.loaded hbelow ht hfits hbase hplaced
  have hh := hw.headers hbelow hbase hplaced hsec hshape htab
  obtain ⟨-, htlast, -, -⟩ := loadParts_spec s hw.align ht hfits
  have hle : s.lastAvailableAddress ≤ base := hbase ▸ le_alignTo _ _
  have hleEnd := le_sectionsEnd s.lastAvailableAddress elf.sections
  have hstartle := le_tablesStart (sectionsEnd s.lastAvailableAddress elf.sections) t.module
  have hsym : (placed.known mem).symtab = elf.sectionHeaderByType shtSymtab :=
    hshape.symtab.symm.trans hh.symtab
  have hstart : placed.start = elf.start := by rw [hplaced]
  obtain ⟨hdata, -⟩ := hw.tables (by omega) hsec.below hplaced
  -- a header that is placed differs from the one in the file in its address only
  have halloc : ∀ (i : Nat) (sh : SectionHeader),
      (placeSections base elf.sections 0).1[i]? = some sh → sh.isAlloc = true →
      sh ∈ allocs (placeSections base elf.sections 0).1 := fun i sh hsh halloc =>
    List.mem_filter.mpr ⟨List.mem_of_getElem? hsh, halloc⟩
  have hget : ∀ (i : Nat) (sh : SectionHeader), elf.sections[i]? = some sh →
      ∃ v, placed.sections[i]? = some { sh with vaddr := v } := by
    intro i sh hsh
    rw [hplaced]
    exact (placeSections_get base hsh 0).imp fun v hv => hv.1
  have hback : ∀ (i : Nat) (sh' : SectionHeader), placed.sections[i]? = some sh' →
      ∃ sh v, elf.sections[i]? = some sh ∧ sh' = { sh with vaddr := v } := by
    intro i sh' hsh'
    rw [hplaced] at hsh'
    exact placeSections_back hsh'
  rw [tablesEnd] at htlast
  refine ⟨hh, fun x hx => ?_, fun i sh' hsh' hyes => ?_, fun i j a' b' ha' hb' hai hbi hij => ?_,
    fun i sh sh' hsh hyes hsh' k hk => ?_, fun i sh hi hsh hpos => ?_, fun j sh hj hsh => ?_,
    fun h => ?_, fun h => ?_⟩
  · -- below the sections nothing changes
    rw [htab.below x (by omega), hsec.below x (by omega)]
  · -- a section that is loaded is in its place
    obtain ⟨sh, v, off, -, hv, rfl⟩ := hh.back hsh'
    rw [← hbase] at hv ⊢
    have hbounds := hsec.bounds _ (halloc i _ hv hyes)
    exact hbounds
  · -- sections are in the order of the file
    obtain ⟨a, v, off, -, hv, rfl⟩ := hh.back ha'
    obtain ⟨b, w, off', -, hw', rfl⟩ := hh.back hb'
    rw [← hbase] at hv hw'
    have hordered := stacked_sections hsec.stacked hv hw' hai hbi hij
    exact hordered
  · -- and have the bytes of the file
    obtain ⟨v, off, hv, hsh'', -⟩ := hh.header i sh hsh
    rw [hsh'] at hsh''
    obtain rfl := Option.some.inj hsh''
    rw [← hbase] at hv
    have hmem := halloc i _ hv hyes
    have hbounds := (hsec.bounds _ hmem).2
    simp only at hbounds ⊢
    rw [htab.below _ (by omega)]
    exact hsec.bytes _ hmem k hk
  · -- the symbols have moved, with their header
    obtain ⟨v, hv⟩ := hget i sh hsh
    obtain ⟨ha, hbytes, htable, hmoved⟩ := htab.symbols i _ (hsym ▸ hi) hv hpos
    have hsource := hdata i sh (.inl (hsym ▸ hi)) hsh
    rw [hstart] at htable hmoved
    rw [← hbase]
    refine ⟨by omega, by simp only at hbytes; omega, ?_, _, hmoved, rfl⟩
    exact ⟨htable.offset, htable.size, htable.entsize, fun k hk =>
      (htable.data k hk).trans (hsec.below _ (by simp only; omega))⟩
  · -- and the strings behind them
    rw [hshape.strtab] at hj
    obtain ⟨v, hv⟩ := hget j sh hsh
    obtain ⟨ha, hbytes, htable⟩ := htab.strings j _ hj hv
    have hsource := hdata j sh (.inr hj) hsh
    rw [hstart] at htable
    rw [← hbase]
    refine ⟨by omega, fun i symtab hi hsymtab hpos => ?_, by simp only at hbytes; omega, ?_,
      hw.isStrtab (by omega) hsec.below hplaced hj hsh⟩
    · obtain ⟨w, hw'⟩ := hget i symtab hsymtab
      obtain ⟨ha', hbytes', -⟩ := htab.symbols i _ (hsym ▸ hi) hw' hpos
      simp only at hbytes'
      omega
    · exact ⟨htable.offset, htable.size, htable.entsize, fun k hk =>
        (htable.data k hk).trans (hsec.below _ (by simp only; omega))⟩
  · -- a table that is said to be there was in the file
    obtain ⟨i, sh', hi, hsh', hpos⟩ := htab.hasSymbols h
    obtain ⟨sh, v, hsh, rfl⟩ := hback i sh' hsh'
    exact ⟨i, sh, hsym ▸ hi, hsh, hpos⟩
  · obtain ⟨i, sh', hi, hsh'⟩ := htab.hasStrings h
    obtain ⟨sh, v, hsh, rfl⟩ := hback i sh' hsh'
    exact ⟨i, sh, hshape.strtab.trans hi, hsh⟩

end ElfParser.WellFormed

/-! ## §4. Symbols. -/

/-- What the loader makes of a symbol of the copied table. -/
def ElfParser.updated (elf : ElfParser) (sym : Symbol) : Symbol :=
  if sym.type < sttSection then { sym with value := add32 sym.value (elf.vaddrAt sym.shndx) }
  else sym

theorem symbolType_eq (m : Memory) {a : Nat} (h : a + 16 < wordSize) :
    ElfParser.symbolType m a = (symbolAt m a).type := by
  rw [ElfParser.symbolType, add32_eq (by omega), symbolAt]

theorem symbolShndx_eq (m : Memory) {a : Nat} (h : a + 16 < wordSize) :
    ElfParser.symbolShndx m a = (symbolAt m a).shndx := by
  rw [ElfParser.symbolShndx, add32_eq (by omega), symbolAt]

theorem vaddrOf_eq_ok {elf : ElfParser} {i v : Nat} :
    elf.vaddrOf i = .ok v ↔ i < elf.sections.length ∧ v = elf.vaddrAt i := by
  rw [ElfParser.vaddrOf, ElfParser.vaddrAt]
  cases h : elf.sections[i]? with
  | none =>
      have hle := List.getElem?_eq_none_iff.mp h
      simp only [reduceCtorEq, false_iff, not_and]
      omega
  | some sh =>
      have hlt := (List.getElem?_eq_some_iff.mp h).1
      simp only [Except.ok.injEq, hlt, true_and, Option.elim_some, eq_comm]

/-- Storing the address in a symbol. -/
theorem symbolAt_store (m : Memory) (a : Nat) {v : Nat} (hv : v < wordSize) :
    symbolAt (m.store32 (a + 4) v) a = { symbolAt m a with value := v } := by
  rw [symbolAt, symbolAt, Memory.load32_store32_ne _ _ _ _ (by omega),
    Memory.load32_store32_same _ _ _ hv, Memory.byte_store32_ne _ _ _ _ (by omega),
    Memory.load16_store32_ne _ _ _ _ (by omega)]

/-- What the loop does for the symbol at an address. -/
def updateSymbol (module : ElfParser) (symbol : Nat) (m : Memory) : Except Halt Memory :=
  if (symbolAt m symbol).type < sttSection then
    (module.vaddrOf (symbolAt m symbol).shndx).map fun vaddr =>
      m.store32 (symbol + 4) (add32 (m.load32 (symbol + 4)) vaddr)
  else .ok m

/-- The symbol is updated, and nothing else changes. -/
theorem updateSymbol_spec {module : ElfParser} {symbol : Nat} {m m' : Memory}
    (h : updateSymbol module symbol m = .ok m') :
    (∀ x, x < symbol ∨ symbol + 16 ≤ x → m'.byte x = m.byte x) ∧
    symbolAt m' symbol = module.updated (symbolAt m symbol) := by
  rw [updateSymbol] at h
  rw [ElfParser.updated]
  split at h
  · next hlow =>
      obtain ⟨v, hv, rfl⟩ := map_eq_ok.mp h
      obtain ⟨-, rfl⟩ := vaddrOf_eq_ok.mp hv
      rw [if_pos hlow]
      refine ⟨fun x hx => Memory.byte_store32_ne _ _ _ _ (by omega), ?_⟩
      exact symbolAt_store m _ (add32_lt _ _)
  · next hhigh =>
      cases h
      rw [if_neg hhigh]
      exact ⟨fun _ _ => rfl, rfl⟩

theorem updateSymbol_ok {module : ElfParser} {symbol : Nat} {m : Memory}
    (h : (symbolAt m symbol).type < sttSection →
      (symbolAt m symbol).shndx < module.sections.length) :
    ∃ m', updateSymbol module symbol m = .ok m' := by
  rw [updateSymbol]
  split
  · next hlow => exact ⟨_, map_eq_ok.mpr ⟨_, vaddrOf_eq_ok.mpr ⟨h hlow, rfl⟩, rfl⟩⟩
  · exact ⟨m, rfl⟩

section UpdateSymbols

variable {module : ElfParser} {loadBase symtab a : Nat} {m m' : Memory}

theorem updateSymbols_succ {n i : Nat} (hoff : add32 loadBase (m.load32 (symtab + 16)) = a)
    (hent : m.load32 (symtab + 36) = 16) (hbefore : symtab + 40 ≤ a)
    (hend : a + 16 * (i + 1) < wordSize) :
    updateSymbols module loadBase symtab (n + 1) i m
      = (updateSymbol module (a + 16 * i) m).bind
          (updateSymbols module loadBase symtab n (i + 1)) := by
  have hsymbol : add32 (add32 loadBase (m.load32 (add32 symtab 16)))
      (i * m.load32 (add32 symtab 36)) = a + 16 * i := by
    rw [add32_eq (show symtab + 16 < wordSize by omega),
      add32_eq (show symtab + 36 < wordSize by omega), hoff, hent, Nat.mul_comm, add32_eq (by omega)]
  rw [updateSymbols, updateSymbol]
  simp only [hsymbol]
  rw [symbolType_eq _ (by omega), symbolShndx_eq _ (by omega), add32_eq (by omega)]

/-- **The symbols of the copy** get their addresses. -/
theorem updateSymbols_spec {n i : Nat} (h : updateSymbols module loadBase symtab n i m = .ok m')
    (hoff : add32 loadBase (m.load32 (symtab + 16)) = a) (hent : m.load32 (symtab + 36) = 16)
    (hbefore : symtab + 40 ≤ a) (hend : a + 16 * (i + n) < wordSize) :
    (∀ x, x < a + 16 * i ∨ a + 16 * (i + n) ≤ x → m'.byte x = m.byte x) ∧
    ∀ j, i ≤ j → j < i + n →
      symbolAt m' (a + 16 * j) = module.updated (symbolAt m (a + 16 * j)) := by
  induction n generalizing i m with
  | zero =>
      cases h
      exact ⟨fun _ _ => rfl, fun j h1 h2 => by omega⟩
  | succ n ih =>
      rw [updateSymbols_succ hoff hent hbefore (by omega)] at h
      obtain ⟨m1, hstep, hrest⟩ := bind_eq_ok.mp h
      obtain ⟨hsame, hsym⟩ := updateSymbol_spec hstep
      have hword : ∀ b, b + 4 ≤ a → m1.load32 b = m.load32 b :=
        fun b hb => Memory.load32_congr fun x _ _ => hsame x (by omega)
      obtain ⟨hsame', hrest'⟩ := ih hrest (by rw [hword _ (by omega), hoff])
        (by rw [hword _ (by omega), hent]) (by omega)
      refine ⟨fun x hx => ?_, fun j h1 h2 => ?_⟩
      · rw [hsame' x (by omega), hsame x (by omega)]
      · by_cases hj : j = i
        · rw [hj, ← hsym]
          exact symbolAt_congr fun x _ _ => hsame' x (by omega)
        · rw [hrest' j (by omega) (by omega)]
          congr 1
          exact symbolAt_congr fun x _ _ => hsame x (by omega)

/-- The loop comes to its end when the symbols are defined in sections. -/
theorem updateSymbols_ok {n i : Nat} (hoff : add32 loadBase (m.load32 (symtab + 16)) = a)
    (hent : m.load32 (symtab + 36) = 16) (hbefore : symtab + 40 ≤ a)
    (hend : a + 16 * (i + n) < wordSize)
    (hdefined : ∀ j, i ≤ j → j < i + n → (symbolAt m (a + 16 * j)).type < sttSection →
      (symbolAt m (a + 16 * j)).shndx < module.sections.length) :
    ∃ m', updateSymbols module loadBase symtab n i m = .ok m' := by
  induction n generalizing i m with
  | zero => exact ⟨m, rfl⟩
  | succ n ih =>
      obtain ⟨m1, hstep⟩ := updateSymbol_ok (hdefined i le_rfl (by omega))
      obtain ⟨hsame, -⟩ := updateSymbol_spec hstep
      have hword : ∀ b, b + 4 ≤ a → m1.load32 b = m.load32 b :=
        fun b hb => Memory.load32_congr fun x _ _ => hsame x (by omega)
      have hend' : a + 16 * (i + 1 + n) < wordSize := by omega
      obtain ⟨m', hrest⟩ := ih (by rw [hword _ (by omega), hoff]) (by rw [hword _ (by omega), hent])
        hend' fun j h1 h2 => by
          rw [symbolAt_congr fun x _ _ => hsame x (by omega)]
          exact hdefined j (by omega) (by omega)
      refine ⟨m', ?_⟩
      rw [updateSymbols_succ hoff hent hbefore (by omega)]
      exact bind_eq_ok.mpr ⟨m1, hstep, hrest⟩

end UpdateSymbols

/-! ## §5. Relocations. -/

theorem Parts.vaddrAt {s : Loader} {elf : ElfParser} {t : Tables} (hp : Parts s elf t) {i : Nat}
    {sh : SectionHeader} (hsh : elf.sections[i]? = some sh) :
    ∃ off, t.module.sections[i]? = some { sh with vaddr := t.module.vaddrAt i, offset := off } ∧
      (sh.type = shtRel → off = sh.offset) := by
  obtain ⟨v, off, -, hsh', hoff⟩ := hp.header i sh hsh
  have hv : t.module.vaddrAt i = v := by rw [ElfParser.vaddrAt, hsh', Option.elim_some]
  refine ⟨off, by rw [hv, hsh'], fun hrel => hoff ?_ ?_⟩
  · rw [hrel]
    decide
  · rw [hrel]
    decide

section Relocate

variable {s : Loader} {elf : ElfParser} {length : Nat} {t : Tables}

/-- The word of a relocation is in the sections of the module. -/
theorem Parts.wordOf_bounds (hp : Parts s elf t) (hw : elf.WellFormed s.mem length)
    {r : Relocation} (hr : r ∈ elf.relocations s.mem) :
    alignTo pageSize s.lastAvailableAddress ≤ t.module.wordOf r ∧
    t.module.wordOf r + 4 ≤ sectionsEnd s.lastAvailableAddress elf.sections := by
  obtain ⟨target, htarget, halloc⟩ := elf.exists_of_mem_relocations hr
  obtain ⟨off, hsh', -⟩ := hp.vaddrAt htarget
  have hin := hw.inSection r hr target htarget
  obtain ⟨h1, h2⟩ := hp.bounds _ _ hsh' halloc
  simp only at h1 h2
  rw [ElfParser.wordOf]
  omega

/-- What one relocation stores. -/
theorem applyRelocation_eq_ok {elf' : ElfParser} {target : SectionHeader} {rel sym : Nat}
    {m m' : Memory} (h : elf'.applyRelocation target rel sym m = .ok m') :
    ∃ v, m' = m.store32 (add32 target.vaddr (m.load32 rel)) v := by
  rw [ElfParser.applyRelocation] at h
  split at h
  · cases h
  · obtain ⟨S, -, rfl⟩ := map_eq_ok.mp h
    exact ⟨_, rfl⟩

/-- The words that the relocations of an image are for. -/
def IsWord (s : Loader) (elf : ElfParser) (t : Tables) (a : Nat) : Prop :=
  ∃ r ∈ elf.relocations s.mem, a = t.module.wordOf r

theorem Parts.byte_of_stored (hp : Parts s elf t) (hw : elf.WellFormed s.mem length)
    {m m' : Memory} (h : Memory.Stored (IsWord s elf t) m m') {x : Nat}
    (hx : x < s.lastAvailableAddress ∨
      sectionsEnd s.lastAvailableAddress elf.sections ≤ x) : m'.byte x = m.byte x := by
  refine h.byte_eq ?_
  rintro a ⟨r, hr, rfl⟩
  have hle := le_alignTo pageSize s.lastAvailableAddress
  have hword := hp.wordOf_bounds hw hr
  omega

/-- The relocations of a section store words of the image only. -/
theorem Parts.applyRelocations_stored (hp : Parts s elf t) (hw : elf.WellFormed s.mem length)
    (hbelow : elf.start + length ≤ s.lastAvailableAddress)
    (hf : Fits s elf t) {sh target' : SectionHeader}
    (hsh : sh ∈ elf.sections) (hrel : elf.relocates sh = true)
    (htarget' : t.module.sections[sh.info]? = some target') {symbols n j : Nat} {m m' : Memory}
    (hn : j + n ≤ sh.size / 8) (hm : ∀ x < s.lastAvailableAddress, m.byte x = s.mem.byte x)
    (h : t.module.applyRelocations target' (elf.start + sh.offset) symbols n j m = .ok m') :
    Memory.Stored (IsWord s elf t) m m' := by
  induction n generalizing j m with
  | zero =>
      cases h
      exact Memory.Stored.refl _ _
  | succ n ih =>
      rw [ElfParser.applyRelocations] at h
      obtain ⟨m1, hstep, hrest⟩ := bind_eq_ok.mp h
      obtain ⟨v, rfl⟩ := applyRelocation_eq_ok hstep
      have hr := elf.mem_relocations (m := s.mem) hsh hrel (show j < sh.size / 8 by omega)
      have hdata := hw.data sh hsh (by rw [(elf.relocates_iff.mp hrel).1]; decide)
      have hmemory := hw.inMemory
      have hword := hp.wordOf_bounds hw hr
      have hsections := hf.sections
      have hlast := hf.last
      have hvaddr : t.module.vaddrAt sh.info = target'.vaddr := by
        rw [ElfParser.vaddrAt, htarget', Option.elim_some]
      have haddr : add32 target'.vaddr (m.load32 (add32 (elf.start + sh.offset) (8 * j)))
          = t.module.wordOf (relocationAt s.mem sh.info (elf.start + sh.offset + 8 * j)) := by
        rw [ElfParser.wordOf, relocationAt, hvaddr] at hword ⊢
        rw [add32_eq (show elf.start + sh.offset + 8 * j < wordSize by omega),
          Memory.load32_congr fun x _ _ => hm x (by omega)]
        exact add32_eq (by simp only at hword; omega)
      rw [haddr] at hrest
      have hone : Memory.Stored (IsWord s elf t) m
          (m.store32 (t.module.wordOf (relocationAt s.mem sh.info
            (elf.start + sh.offset + 8 * j))) v) := (Memory.Stored.refl _ _).store v ⟨_, hr, rfl⟩
      refine hone.trans (ih (by omega) (fun x hx => ?_) hrest)
      rw [hp.byte_of_stored hw hone (.inl hx), hm x hx]

/-- The section headers in memory are those of the image, but for addresses and offsets. -/
theorem Parts.back (hp : Parts s elf t) {sh' : SectionHeader} (h : sh' ∈ t.module.sections) :
    ∃ sh ∈ elf.sections, ∃ i off, elf.sections[i]? = some sh ∧
      sh' = { sh with vaddr := t.module.vaddrAt i, offset := off } ∧
      (sh.type = shtRel → off = sh.offset) := by
  obtain ⟨i, hi⟩ := List.mem_iff_getElem?.mp h
  have hlt : i < elf.sections.length := hp.length ▸ (List.getElem?_eq_some_iff.mp hi).1
  obtain ⟨off, hsh', hoff⟩ := hp.vaddrAt (List.getElem?_eq_getElem hlt)
  rw [hi] at hsh'
  exact ⟨_, List.getElem_mem hlt, i, off, List.getElem?_eq_getElem hlt, Option.some.inj hsh', hoff⟩

/-- A section is skipped, or its relocations are applied. -/
theorem relocateSection_cases {elf' : ElfParser} {sh : SectionHeader} {m m' : Memory}
    (h : elf'.relocateSection sh m = .ok m') :
    m' = m ∨ ∃ target symbols, sh.type = shtRel ∧ elf'.sections[sh.info]? = some target ∧
      target.isAlloc = true ∧
      elf'.applyRelocations target (add32 elf'.start sh.offset) symbols (sh.size / 8) 0 m
        = .ok m' := by
  have hsame : Except.ok m = (Except.ok m' : Except Halt Memory) → m' = m := fun heq => by
    cases heq
    rfl
  rw [ElfParser.relocateSection] at h
  -- only a section of relocations for a loaded section does anything
  split at h
  · next htype =>
      split at h
      · cases h
      · next target htarget =>
          split at h
          · exact .inl (hsame h)
          · next halloc =>
              split at h
              · cases h
              · split at h
                · exact .inl (hsame h)
                · simp only at h
                  split at h
                  · exact .inl (hsame h)
                  · exact .inr ⟨target, _, htype, htarget, by simpa using halloc, h⟩
  · exact .inl (hsame h)

/-- What `relocate_to` does for a section stores words of the image only. -/
theorem Parts.relocateSection_stored (hp : Parts s elf t) (hw : elf.WellFormed s.mem length)
    (hbelow : elf.start + length ≤ s.lastAvailableAddress)
    (hf : Fits s elf t) {sh' : SectionHeader}
    (hsh' : sh' ∈ t.module.sections) {m m' : Memory}
    (hm : ∀ x < s.lastAvailableAddress, m.byte x = s.mem.byte x)
    (h : t.module.relocateSection sh' m = .ok m') : Memory.Stored (IsWord s elf t) m m' := by
  rcases relocateSection_cases h with rfl | ⟨target', symbols, htype, htarget', halloc, happly⟩
  · exact Memory.Stored.refl _ _
  · obtain ⟨sh, hsh, i, off, -, rfl, hoff⟩ := hp.back hsh'
    have hlt : sh.info < elf.sections.length :=
      hp.length ▸ (List.getElem?_eq_some_iff.mp htarget').1
    obtain ⟨off', h1, -⟩ := hp.vaddrAt (List.getElem?_eq_getElem hlt)
    have hrel : elf.relocates sh = true := by
      refine elf.relocates_iff.mpr ⟨htype, _, List.getElem?_eq_getElem hlt, ?_⟩
      rw [htarget'] at h1
      rw [Option.some.inj h1] at halloc
      exact halloc
    have hdata := hw.data sh hsh (by rw [(elf.relocates_iff.mp hrel).1]; decide)
    have hmemory := hw.inMemory
    rw [hp.start, hoff htype, add32_eq (show elf.start + sh.offset < wordSize by omega)] at happly
    exact hp.applyRelocations_stored hw hbelow hf hsh hrel htarget' (by simp) hm happly

/-- **Relocating** stores words of the image only. -/
theorem Parts.relocateTo_stored (hp : Parts s elf t) (hw : elf.WellFormed s.mem length)
    (hbelow : elf.start + length ≤ s.lastAvailableAddress)
    (hf : Fits s elf t) {m m' : Memory}
    (hm : ∀ x < s.lastAvailableAddress, m.byte x = s.mem.byte x)
    (h : t.module.relocateTo m = .ok m') : Memory.Stored (IsWord s elf t) m m' := by
  rw [ElfParser.relocateTo] at h
  split at h
  · cases h
    exact Memory.Stored.refl _ _
  · refine foldl_bind_invariant (Memory.Stored (IsWord s elf t) m) (Memory.Stored.refl _ _)
      (fun sh hsh m1 m2 hm1 hstep => ?_) h
    refine hm1.trans (hp.relocateSection_stored hw hbelow hf hsh (fun x hx => ?_) hstep)
    rw [hp.byte_of_stored hw hm1 (.inl hx), hm x hx]

end Relocate

/-! ## §6. Before the relocations. -/

/-- Memory before the relocations: the image is there, and the symbols of the copied table
have their addresses. -/
structure Ready (s : Loader) (elf : ElfParser) (t : Tables) (m : Memory) : Prop where
  below : ∀ x < s.lastAvailableAddress, m.byte x = s.mem.byte x
  symbols : ∀ i < elf.symbolCount,
    symbolAt m (t.symtabStart + 40 + 16 * i) = t.module.updated (elf.symbol s.mem i)

section Ready

variable {s : Loader} {elf : ElfParser} {length : Nat} {t : Tables} {m : Memory}

/-- Where the symbols are that the relocations use. -/
theorem Parts.symbols_bounds (hp : Parts s elf t) {i : Nat} (hi : i < elf.symbolCount) :
    sectionsEnd s.lastAvailableAddress elf.sections ≤ t.symtabStart ∧
    t.symtabStart + 40 + 16 * i + 16 ≤ t.last := by
  obtain ⟨j, sh, hj, hsh, -, hsize⟩ := elf.symbolTable_of_count hi
  obtain ⟨h1, h2, -⟩ := hp.symbols j sh hj hsh (by omega)
  omega

/-- A store in the sections leaves everything ready. -/
theorem Ready.store (h : Ready s elf t m) (hp : Parts s elf t) (hw : elf.WellFormed s.mem length)
    {r : Relocation} (hr : r ∈ elf.relocations s.mem) (v : Nat) :
    Ready s elf t (m.store32 (t.module.wordOf r) v) := by
  have hword := hp.wordOf_bounds hw hr
  have hle := le_alignTo pageSize s.lastAvailableAddress
  refine ⟨fun x hx => ?_, fun i hi => ?_⟩
  · rw [Memory.byte_store32_ne _ _ _ _ (by omega), h.below x hx]
  · have hbounds := hp.symbols_bounds hi
    rw [← h.symbols i hi]
    exact symbolAt_congr fun x _ _ => Memory.byte_store32_ne _ _ _ _ (by omega)

/-- The loop over the symbols counts those of the image. -/
theorem Parts.symbolEntriesCount (hp : Parts s elf t) (hw : elf.WellFormed s.mem length) :
    t.module.symbolEntriesCount = elf.symbolCount := by
  rw [ElfParser.symbolEntriesCount, ElfParser.symtabHeader, hp.symtab, ElfParser.symbolCount,
    ElfParser.symbolTable]
  cases hj : elf.sectionHeaderByType shtSymtab with
  | none => rfl
  | some j =>
      have hlt := (List.findIdx?_eq_some_iff_getElem.mp hj).1
      obtain ⟨off, hsh', -⟩ := hp.vaddrAt (List.getElem?_eq_getElem hlt)
      have hent := hw.symbols elf.sections[j] (by
        rw [ElfParser.symbolTable, hj, Option.bind_some, List.getElem?_eq_getElem hlt])
      simp only [Option.bind_some, hsh', List.getElem?_eq_getElem hlt, Option.elim_some, hent]

/-- The copied table, as the loop over the symbols finds it. -/
theorem Parts.symbolTable (hp : Parts s elf t) (hw : elf.WellFormed s.mem length)
    (hf : Fits s elf t) (hpos : 0 < elf.symbolCount) :
    add32 (alignTo pageSize s.lastAvailableAddress) (t.mem.load32 (t.symtabStart + 16))
      = t.symtabStart + 40 ∧
    t.mem.load32 (t.symtabStart + 36) = 16 ∧
    t.symtabStart + 40 + 16 * elf.symbolCount ≤ t.last ∧
    ∀ i < elf.symbolCount,
      symbolAt t.mem (t.symtabStart + 40 + 16 * i) = elf.symbol s.mem i := by
  obtain ⟨j, sh, hj, hsh, htable, hsize⟩ := elf.symbolTable_of_count hpos
  obtain ⟨hstart, hend, hat, -⟩ := hp.symbols j sh hj hsh (by omega)
  have hcount : elf.symbolCount = sh.size / 16 := by
    rw [ElfParser.symbolCount, htable, Option.elim_some]
  have hlast := hf.last
  refine ⟨?_, ?_, by omega, fun i hi => ?_⟩
  · rw [hat.offset]
    exact add32_sub32 (by omega)
  · rw [hat.entsize, hw.symbols sh htable]
    decide
  · rw [ElfParser.symbol, htable, Option.elim_some]
    refine symbolAt_shift fun k hk => ?_
    have := hat.data (16 * i + k) (by omega)
    rwa [← Nat.add_assoc, ← Nat.add_assoc] at this

/-- **Before the relocations** everything is ready, and only symbols of the copied table have
changed. -/
theorem Parts.ready (hp : Parts s elf t) (hw : elf.WellFormed s.mem length) (hf : Fits s elf t)
    (h : updateSymbols t.module (alignTo pageSize s.lastAvailableAddress) t.symtabStart
      elf.symbolCount 0 t.mem = .ok m) :
    Ready s elf t m ∧ ∀ x, (x < t.symtabStart + 40 ∨
      t.symtabStart + 40 + 16 * elf.symbolCount ≤ x) → m.byte x = t.mem.byte x := by
  rcases Nat.eq_zero_or_pos elf.symbolCount with hnone | hpos
  · rw [hnone] at h
    cases h
    exact ⟨⟨hp.below, fun i hi => by omega⟩, fun _ _ => rfl⟩
  · obtain ⟨hoff, hent, hend, hsyms⟩ := hp.symbolTable hw hf hpos
    have hlast := hf.last
    have hbounds := hp.symbols_bounds hpos
    have hle := le_sectionsEnd s.lastAvailableAddress elf.sections
    obtain ⟨hsame, hupdated⟩ := updateSymbols_spec h hoff hent (by omega) (by omega)
    simp only [Nat.mul_zero, Nat.add_zero, Nat.zero_add, Nat.zero_le, true_implies] at hsame hupdated
    refine ⟨⟨fun x hx => ?_, fun i hi => ?_⟩, hsame⟩
    · rw [hsame x (by omega), hp.below x hx]
    · rw [hupdated i hi, hsyms i hi]

end Ready

/-! ## §7. A module that is loaded. -/

/-- **What a call has done** when it has loaded an image: the sections and the tables are in
memory, then the symbols have got their addresses, then words of the sections were
relocated, and then the descriptor was written. -/
theorem install_contents {s s' : Loader} {name : Text} {elf elf' : ElfParser} {length : Nat}
    {d : ModuleDescriptor} (h : s.install name elf = .ok (s', elf', d))
    (hw : elf.WellFormed s.mem length) (hbelow : elf.start + length ≤ s.lastAvailableAddress)
    (hfits : plannedEnd s.lastAvailableAddress elf.sections elf' < wordSize) :
    ∃ t m1 m2, s.loadParts elf = t ∧ elf' = t.module ∧ Parts s elf t ∧ Fits s elf t ∧
      Ready s elf t m1 ∧
      (∀ x, (x < t.symtabStart + 40 ∨ t.symtabStart + 40 + 16 * elf.symbolCount ≤ x) →
        m1.byte x = t.mem.byte x) ∧
      t.module.relocateTo m1 = .ok m2 ∧ Memory.Stored (IsWord s elf t) m1 m2 ∧
      d = s.descriptor name elf t m2 ∧
      s'.lastAvailableAddress = pagesEnd t.last ∧
      s'.mem = m2.write (pagesEnd t.last - ModuleDescriptor.size) d.bytes := by
  obtain ⟨t, ht⟩ : ∃ t, s.loadParts elf = t := ⟨_, rfl⟩
  rw [Loader.install] at h
  split at h
  · cases h
  · simp only [ht] at h
    obtain ⟨m1, hupdate, h⟩ := bind_eq_ok.mp h
    obtain ⟨m2, hrelocate, h⟩ := bind_eq_ok.mp h
    -- the descriptor is written last, at the end of the pages
    split at h
    · cases h
    · obtain ⟨hs', rfl, rfl⟩ : _ ∧ _ ∧ _ := by
        simpa only [Except.ok.injEq, Prod.mk.injEq] using h
      have hp := hw.parts hbelow ht hfits
      have hf := s.fits hw.align ht hfits
      rw [hf.pageAlignUp, hp.symbolEntriesCount hw] at hupdate
      obtain ⟨hready, hsame⟩ := hp.ready hw hf hupdate
      have hsize := add_size_le_pagesEnd t.last
      have hstored := hp.relocateTo_stored hw hbelow hf hready.below hrelocate
      rw [hf.ended] at hs'
      refine ⟨t, m1, m2, ht, rfl, hp, hf, hready, hsame, hrelocate, hstored, rfl, ?_, ?_⟩
      · rw [← hs']
      · rw [← hs', sub32_eq (by omega) hf.inMemory]

end Metta.ModuleLoader
