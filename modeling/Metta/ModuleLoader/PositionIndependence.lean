/-
  Metta.ModuleLoader.PositionIndependence — relocatable images in memory.

  The symbols that the relocations use are those of the copied table, with
  their addresses in it; the words that they change are in the sections.  So
  the loop over the relocations is a change of words that do not overlap.

    • `relocateTo_eq` — the loop, as changes of words,
    • `Holds` — what a relocated image is,
    • `module_position_independent` — it is that, at every base.
-/
import Metta.ModuleLoader.Contents
import Metta.ModuleLoader.Runs

namespace Metta.ModuleLoader

open Metta.Machine

section Relocations

variable {s : Loader} {elf : ElfParser} {length : Nat} {t : Tables} {m : Memory}

/-! ## §1. The loop over the relocations. -/

/-- What a relocation makes of its word, when the sections are where they are in `elf'`. -/
def ElfParser.amended (elf' elf : ElfParser) (file : Memory) (r : Relocation) (a : Nat) : Nat :=
  relocated r.type (elf'.addressOf (elf.symbol file r.symbol)) a (elf'.wordOf r)

/-- The address that is used for a symbol of the copied table. -/
theorem ElfParser.addressOf_updated (elf' : ElfParser) {sym : Symbol} (htype : sym.type ≤ sttSection)
    (hshndx : sym.shndx < elf'.sections.length) :
    (elf'.updated sym).type = sym.type ∧ (elf'.updated sym).shndx = sym.shndx ∧
    (if sym.type = sttSection then elf'.vaddrOf sym.shndx else .ok (elf'.updated sym).value)
      = .ok (elf'.addressOf sym) := by
  rw [updated, addressOf]
  by_cases hlow : sym.type < sttSection
  · rw [if_pos hlow, if_neg (by omega), if_neg (by omega)]
    exact ⟨rfl, rfl, rfl⟩
  · rw [if_neg hlow, if_pos (by omega), if_pos (by omega)]
    exact ⟨rfl, rfl, vaddrOf_eq_ok.mpr ⟨hshndx, rfl⟩⟩

/-- What one relocation does. -/
theorem Ready.applyRelocation_eq (h : Ready s elf t m) (hp : Parts s elf t)
    (himg : elf.Relocatable s.mem length) (hf : Fits s elf t)
    {target' : SectionHeader} {r : Relocation} {rel : Nat}
    (htarget' : t.module.sections[r.target]? = some target') (hr : r ∈ elf.relocations s.mem)
    (hrel : relocationAt s.mem r.target rel = r) (hin : rel + 8 ≤ s.lastAvailableAddress) :
    t.module.applyRelocation target' rel
        (add32 (t.symtabStart + 40) (16 * (m.load32 (add32 rel 4) / 256))) m
      = .ok (Memory.amend t.module.wordOf (t.module.amended elf s.mem) m r) := by
  obtain ⟨-, hcount, htype, hpos, hshndx⟩ := himg.used r hr
  have hword := hp.wordOf_bounds himg.toWellFormed hr
  have hbounds := hp.symbols_bounds hcount
  have hle := le_sectionsEnd s.lastAvailableAddress elf.sections
  have hsections := hf.sections
  have hlast := hf.last
  have hvaddr : t.module.vaddrAt r.target = target'.vaddr := by
    rw [ElfParser.vaddrAt, htarget', Option.elim_some]
  -- the relocation is read as it is in the image
  have hload : ∀ a, a + 4 ≤ s.lastAvailableAddress → m.load32 a = s.mem.load32 a :=
    fun a ha => Memory.load32_congr fun x _ _ => h.below x (by omega)
  have hrel4 : add32 rel 4 = rel + 4 := add32_eq (by omega)
  have hoffset : m.load32 rel = r.offset := by rw [hload _ (by omega), ← hrel, relocationAt]
  have htype' : m.load32 (rel + 4) % 256 = r.type := by rw [hload _ (by omega), ← hrel, relocationAt]
  have hsymbol : m.load32 (rel + 4) / 256 = r.symbol := by
    rw [hload _ (by omega), ← hrel, relocationAt]
  have hsym : add32 (t.symtabStart + 40) (16 * r.symbol) = t.symtabStart + 40 + 16 * r.symbol :=
    add32_eq (by omega)
  have hp' : add32 target'.vaddr r.offset = t.module.wordOf r := by
    rw [ElfParser.wordOf, hvaddr] at hword ⊢
    exact add32_eq (by omega)
  -- the symbol is read as the loader has updated it
  obtain ⟨h1, h2, h3⟩ := t.module.addressOf_updated htype (hp.length ▸ hshndx)
  have hat := h.symbols r.symbol hcount
  rw [ElfParser.applyRelocation]
  simp only [hrel4, hoffset, htype', hsymbol, hsym, hp']
  rw [symbolType_eq _ (by omega), symbolShndx_eq _ (by omega),
    add32_eq (show t.symtabStart + 40 + 16 * r.symbol + 4 < wordSize by omega),
    show m.load32 (t.symtabStart + 40 + 16 * r.symbol + 4)
      = (symbolAt m (t.symtabStart + 40 + 16 * r.symbol)).value from rfl,
    hat, h1, h2, if_neg (by omega), h3]
  rfl

/-- The loop over the relocations of a section. -/
theorem Ready.applyRelocations_eq (h : Ready s elf t m) (hp : Parts s elf t)
    (himg : elf.Relocatable s.mem length) (hf : Fits s elf t)
    (hbelow : elf.start + length ≤ s.lastAvailableAddress)
    {sh target' : SectionHeader} (hsh : sh ∈ elf.sections) (hrel : elf.relocates sh = true)
    (htarget' : t.module.sections[sh.info]? = some target') {n j : Nat}
    (hn : j + n ≤ sh.size / 8) :
    let rs := (List.range' j n).map fun j =>
      relocationAt s.mem sh.info (elf.start + sh.offset + 8 * j)
    t.module.applyRelocations target' (elf.start + sh.offset) (t.symtabStart + 40) n j m
        = .ok (rs.foldl (Memory.amend t.module.wordOf (t.module.amended elf s.mem)) m) ∧
      Ready s elf t (rs.foldl (Memory.amend t.module.wordOf (t.module.amended elf s.mem)) m) := by
  induction n generalizing j m with
  | zero => exact ⟨rfl, h⟩
  | succ n ih =>
      have hr := elf.mem_relocations (m := s.mem) hsh hrel (show j < sh.size / 8 by omega)
      have hdata := himg.data sh hsh (by rw [(elf.relocates_iff.mp hrel).1]; decide)
      have hmemory := himg.inMemory
      have hone := h.applyRelocation_eq hp himg hf htarget' hr rfl (by omega)
      have haddr : add32 (elf.start + sh.offset) (8 * j) = elf.start + sh.offset + 8 * j :=
        add32_eq (by omega)
      obtain ⟨h1, h2⟩ := ih (h.store hp himg.toWellFormed hr _) (show j + 1 + n ≤ sh.size / 8 by omega)
      simp only [List.range'_succ, List.map_cons, List.foldl_cons]
      refine ⟨?_, h2⟩
      rw [ElfParser.applyRelocations]
      simp only [haddr]
      rw [hone]
      exact h1

/-- What `relocate_to` does for a section. -/
theorem Ready.relocateSection_eq (h : Ready s elf t m) (hp : Parts s elf t)
    (himg : elf.Relocatable s.mem length) (hf : Fits s elf t)
    (hbelow : elf.start + length ≤ s.lastAvailableAddress)
    {sh sh' : SectionHeader} (hsh : sh ∈ elf.sections) {v off : Nat}
    (hsh' : sh' = { sh with vaddr := v, offset := off }) (hoff : sh.type = shtRel → off = sh.offset) :
    t.module.relocateSection sh' m = .ok ((elf.relocationsOf s.mem sh).foldl
        (Memory.amend t.module.wordOf (t.module.amended elf s.mem)) m) ∧
      Ready s elf t ((elf.relocationsOf s.mem sh).foldl
        (Memory.amend t.module.wordOf (t.module.amended elf s.mem)) m) := by
  rw [hsh', ElfParser.relocateSection, ElfParser.relocationsOf]
  -- the branches of `relocate_section`: not of relocations, of a section that is not loaded, empty
  by_cases htype : sh.type = shtRel
  · obtain ⟨hinfo, huse⟩ := himg.relSections sh hsh htype
    obtain ⟨off', htarget', -⟩ := hp.vaddrAt (List.getElem?_eq_getElem hinfo)
    simp only [htype, if_true, htarget']
    cases halloc : elf.sections[sh.info].isAlloc with
    | false =>
        have hno : elf.relocates sh = false := by
          rw [← Bool.not_eq_true, elf.relocates_iff]
          rintro ⟨-, target, htarget, hyes⟩
          rw [List.getElem?_eq_getElem hinfo] at htarget
          rw [← Option.some.inj htarget, halloc] at hyes
          cases hyes
        rw [hno, if_pos]
        · exact ⟨rfl, h⟩
        · exact congrArg not halloc
    | true =>
        have hrel : elf.relocates sh = true :=
          elf.relocates_iff.mpr ⟨htype, _, List.getElem?_eq_getElem hinfo, halloc⟩
        obtain ⟨hent, hlink⟩ := huse hrel
        have hdata := himg.data sh hsh (by rw [htype]; decide)
        have hmemory := himg.inMemory
        have hstart : add32 t.module.start off = elf.start + sh.offset := by
          rw [hp.start, hoff htype]
          exact add32_eq (by omega)
        have halloc' : ¬ (!({ elf.sections[sh.info] with
            vaddr := t.module.vaddrAt sh.info, offset := off' } : SectionHeader).isAlloc) = true := by
          rw [show ({ elf.sections[sh.info] with vaddr := t.module.vaddrAt sh.info, offset := off' } :
            SectionHeader).isAlloc = elf.sections[sh.info].isAlloc from rfl, halloc]
          decide
        rw [if_neg halloc', if_neg (by simp [hent]), if_pos hrel, hstart]
        by_cases hnone : sh.size / 8 = 0
        · rw [hnone]
          refine ⟨?_, h⟩
          split
          · rfl
          · split <;> rfl
        · have hr := elf.mem_relocations (m := s.mem) hsh hrel (show 0 < sh.size / 8 by omega)
          obtain ⟨j, symtab, hj, hsymtab, -, hsize⟩ :=
            elf.symbolTable_of_count (himg.used _ hr).2.1
          obtain ⟨-, hend, -, symtab', hsymtab', hoffset⟩ := hp.symbols j symtab hj hsymtab (by omega)
          obtain rfl : j = sh.link := by
            rw [hlink] at hj
            exact (Option.some.inj hj).symm
          have hsymbols : add32 t.module.start symtab'.offset = t.symtabStart + 40 := by
            rw [hp.start, hoffset]
            have hlast := hf.last
            exact add32_sub32 (by omega)
          simp only [hsymtab', hsymbols]
          rw [if_neg (by omega), List.range_eq_range']
          exact h.applyRelocations_eq hp himg hf hbelow hsh hrel htarget' (by omega)
  · -- other sections are passed by
    have hno : elf.relocates sh = false := by
      rw [← Bool.not_eq_true, elf.relocates_iff]
      exact fun hrel => htype hrel.1
    rw [hno, if_neg htype]
    exact ⟨rfl, h⟩

/-- A header of the image, and what the loader has made of it. -/
def LoadedHeader (elf : ElfParser) (sh sh' : SectionHeader) : Prop :=
  sh ∈ elf.sections ∧ ∃ v off, sh' = { sh with vaddr := v, offset := off } ∧
    (sh.type = shtRel → off = sh.offset)

theorem Parts.headers (hp : Parts s elf t) :
    List.Forall₂ (LoadedHeader elf) elf.sections t.module.sections := by
  refine List.forall₂_iff_get.mpr ⟨hp.length.symm, fun i h1 h2 => ?_⟩
  obtain ⟨off, hget, hoff⟩ := hp.vaddrAt (List.getElem?_eq_getElem h1)
  rw [List.getElem?_eq_getElem h2] at hget
  exact ⟨List.get_mem _ _, _, off, Option.some.inj hget, hoff⟩

/-- The loop over the sections. -/
theorem Ready.relocateSections_eq (h : Ready s elf t m) (hp : Parts s elf t)
    (himg : elf.Relocatable s.mem length) (hf : Fits s elf t)
    (hbelow : elf.start + length ≤ s.lastAvailableAddress)
    {shs shs' : List SectionHeader} (hall : List.Forall₂ (LoadedHeader elf) shs shs') :
    shs'.foldl (fun (r : Except Halt Memory) sh => r.bind (t.module.relocateSection sh)) (.ok m)
      = .ok ((shs.flatMap (elf.relocationsOf s.mem)).foldl
          (Memory.amend t.module.wordOf (t.module.amended elf s.mem)) m) := by
  induction hall generalizing m with
  | nil => rfl
  | cons hone _ ih =>
      obtain ⟨hsh, v, off, hsh', hoff⟩ := hone
      obtain ⟨h1, h2⟩ := h.relocateSection_eq hp himg hf hbelow hsh hsh' hoff
      rw [foldl_bind_cons, h1, List.flatMap_cons, List.foldl_append]
      exact ih h2

/-- **Relocating**, as a change of words. -/
theorem Ready.relocateTo_eq (h : Ready s elf t m) (hp : Parts s elf t)
    (himg : elf.Relocatable s.mem length) (hf : Fits s elf t)
    (hbelow : elf.start + length ≤ s.lastAvailableAddress) :
    t.module.relocateTo m = .ok ((elf.relocations s.mem).foldl
      (Memory.amend t.module.wordOf (t.module.amended elf s.mem)) m) := by
  have hnames : t.module.sectionShstringTable ≠ none := by
    have hnames := himg.hasNames
    rw [ElfParser.sectionShstringTable] at hnames ⊢
    rw [hp.shstrndx]
    split at hnames
    · exact absurd rfl hnames
    · next hno =>
        rw [if_neg hno, ne_eq, List.getElem?_eq_none_iff, hp.length]
        simpa [List.getElem?_eq_none_iff] using hnames
  rw [ElfParser.relocateTo]
  split
  · next hnone => exact absurd hnone hnames
  · exact h.relocateSections_eq hp himg hf hbelow hp.headers

/-! ## §2. A relocated image. -/

/-- What a relocated image is, with its sections where they are in `elf'`: a relocated word
is `S + A` or `S + A - P`, and every other byte is what the file has. -/
structure ElfParser.Holds (elf : ElfParser) (file : Memory) (elf' : ElfParser) (mem : Memory) :
    Prop where
  words : ∀ r ∈ elf.relocations file, ∀ target, elf.sections[r.target]? = some target →
    let S := elf'.addressOf (elf.symbol file r.symbol)
    let A := elf.fileWord file target r.offset
    let P := elf'.wordOf r
    (r.type = 0 → mem.load32 P = A) ∧
    (r.type = 1 → (mem.load32 P : Int) = (S + A) % wordSize) ∧
    (r.type = 2 → (mem.load32 P : Int) = (S + A - P) % wordSize)
  bytes : ∀ (i : Nat) (sh : SectionHeader), elf.sections[i]? = some sh → sh.isAlloc = true →
    ∀ k < sh.size, (∀ r ∈ elf.relocations file, r.target = i → k < r.offset ∨ r.offset + 4 ≤ k) →
      mem.byte (elf'.vaddrAt i + k) = elf.fileByte file sh k

theorem ElfParser.relocated_eq (type s a p : Nat) (ha : a < wordSize) :
    relocated type s a p < wordSize ∧ (type = 0 → relocated type s a p = a) ∧
    (type = 1 → (relocated type s a p : Int) = (s + a) % wordSize) ∧
    (type = 2 → (relocated type s a p : Int) = (s + a - p) % wordSize) := by
  refine ⟨?_, ?_, ?_, ?_⟩
  · unfold relocated
    split
    · exact ha
    · exact add32_lt _ _
    · exact sub32_lt _ _
    · decide
  · rintro rfl
    rfl
  · rintro rfl
    simp only [relocated, add32, wordSize]
    omega
  · rintro rfl
    simp only [relocated, add32, sub32, wordSize]
    omega

/-- The words of the relocations of an image do not overlap. -/
theorem Parts.words_apart (hp : Parts s elf t) (himg : elf.Relocatable s.mem length) :
    (elf.relocations s.mem).Pairwise fun r r' =>
      t.module.wordOf r + 4 ≤ t.module.wordOf r' ∨ t.module.wordOf r' + 4 ≤ t.module.wordOf r := by
  have hword : ∀ r ∈ elf.relocations s.mem, ∃ sh, t.module.sections[r.target]? = some sh ∧
      sh.isAlloc = true ∧ t.module.wordOf r = sh.vaddr + r.offset ∧ r.offset + 4 ≤ sh.size := by
    intro r hr
    obtain ⟨target, htarget, halloc⟩ := elf.exists_of_mem_relocations hr
    obtain ⟨off, hsh', -⟩ := hp.vaddrAt htarget
    exact ⟨_, hsh', halloc, rfl, himg.inSection r hr target htarget⟩
  refine himg.apart.imp_of_mem fun {r r'} hr hr' hapart => ?_
  obtain ⟨sh, hsh, halloc, hw, hin⟩ := hword r hr
  obtain ⟨sh', hsh', halloc', hw', hin'⟩ := hword r' hr'
  rcases lt_trichotomy r.target r'.target with hlt | heq | hgt
  · have := hp.ordered _ _ _ _ hsh hsh' halloc halloc' hlt
    omega
  · have := hapart heq
    rw [heq, hsh'] at hsh
    obtain rfl := Option.some.inj hsh
    omega
  · have := hp.ordered _ _ _ _ hsh' hsh halloc' halloc hgt
    omega

/-- The word in memory is the one of the file until it is relocated. -/
theorem Parts.load32_wordOf (hp : Parts s elf t) {m1 : Memory}
    (hm1 : ∀ x < sectionsEnd s.lastAvailableAddress elf.sections, m1.byte x = t.mem.byte x)
    {r : Relocation} {target : SectionHeader} (htarget : elf.sections[r.target]? = some target)
    (halloc : target.isAlloc = true) (hin : r.offset + 4 ≤ target.size) :
    m1.load32 (t.module.wordOf r) = elf.fileWord s.mem target r.offset := by
  obtain ⟨off, hsh', -⟩ := hp.vaddrAt htarget
  have hbounds := (hp.bounds _ _ hsh' halloc).2
  have hbytes := hp.bytes _ _ _ htarget halloc hsh'
  simp only at hbounds hbytes
  have hbyte : ∀ k < 4, m1.byte (t.module.wordOf r + k) = elf.fileByte s.mem target (r.offset + k) := by
    intro k hk
    rw [ElfParser.wordOf, Nat.add_assoc, hm1 _ (by omega), hbytes _ (by omega)]
  simp only [ElfParser.fileByte, ← Nat.add_assoc] at hbyte
  rw [ElfParser.fileWord]
  split
  · next hno =>
      simp only [hno, if_true] at hbyte
      refine Memory.load32_eq_zero fun x h1 h2 => ?_
      obtain ⟨k, rfl⟩ : ∃ k, x = t.module.wordOf r + k := ⟨x - t.module.wordOf r, by omega⟩
      exact hbyte k (by omega)
  · next hno =>
      simp only [hno, if_false] at hbyte
      exact Memory.load32_shift hbyte

/-- **An image that is loaded** is relocated. -/
theorem Ready.holds (h : Ready s elf t m) (hp : Parts s elf t)
    (himg : elf.Relocatable s.mem length) (hf : Fits s elf t)
    (hbelow : elf.start + length ≤ s.lastAvailableAddress)
    (hm : ∀ x < sectionsEnd s.lastAvailableAddress elf.sections, m.byte x = t.mem.byte x)
    {m' mem : Memory} (hrelocate : t.module.relocateTo m = .ok m')
    (hmem : ∀ x < t.last, mem.byte x = m'.byte x) :
    elf.Holds s.mem t.module mem := by
  rw [h.relocateTo_eq hp himg hf hbelow] at hrelocate
  obtain rfl := Except.ok.inj hrelocate
  have hsections := hf.sections
  -- a word that is relocated, and bytes that are not
  refine ⟨fun r hr target htarget => ?_, fun i sh hsh halloc k hk hfree => ?_⟩
  · obtain ⟨target', htarget', halloc⟩ := elf.exists_of_mem_relocations hr
    rw [htarget] at htarget'
    obtain rfl := Option.some.inj htarget'
    have hword := hp.wordOf_bounds himg.toWellFormed hr
    have hfile := hp.load32_wordOf hm htarget halloc (himg.inSection r hr target htarget)
    have hlt : elf.fileWord s.mem target r.offset < wordSize := hfile ▸ Memory.load32_lt _ _
    have hload : mem.load32 (t.module.wordOf r)
        = t.module.amended elf s.mem r (elf.fileWord s.mem target r.offset) := by
      rw [Memory.load32_congr fun x _ _ => hmem x (by omega),
        Memory.load32_foldl_amend _ (t.module.amended elf s.mem) _
          (fun r v hv => (ElfParser.relocated_eq _ _ _ _ hv).1) (hp.words_apart himg) hr, hfile]
    simp only [hload]
    exact (ElfParser.relocated_eq _ _ _ _ hlt).2
  · obtain ⟨off, hsh', -⟩ := hp.vaddrAt hsh
    -- no word that was written reaches the byte
    have hbounds := (hp.bounds _ _ hsh' halloc).2
    simp only at hbounds
    rw [hmem _ (by omega), Memory.byte_foldl_amend, hm _ (by omega)]
    · exact hp.bytes i sh _ hsh halloc hsh' k hk
    · -- a word in another section is in another place
      intro r hr
      obtain ⟨target, htarget, halloc'⟩ := elf.exists_of_mem_relocations hr
      obtain ⟨off', htarget', -⟩ := hp.vaddrAt htarget
      have hin := himg.inSection r hr target htarget
      rw [ElfParser.wordOf]
      rcases lt_trichotomy r.target i with hlt | heq | hgt
      · have := hp.ordered _ _ _ _ htarget' hsh' halloc' halloc hlt
        simp only at this
        omega
      · have := hfree r hr heq
        rw [heq]
        omega
      · have := hp.ordered _ _ _ _ hsh' htarget' halloc halloc' hgt
        simp only at this
        omega

end Relocations

/-! ## §3. Loading. -/

section Loading

variable {s : Loader} {elf : ElfParser} {length : Nat}

/-- A relocatable image that fits is loaded. -/
theorem ElfParser.Relocatable.install_ok (himg : elf.Relocatable s.mem length) (name : Text)
    (hbelow : elf.start + length ≤ s.lastAvailableAddress)
    (hfits : plannedEnd s.lastAvailableAddress elf.sections (s.loadParts elf).module < wordSize) :
    ∃ s' elf' d, s.install name elf = .ok (s', elf', d) := by
  obtain ⟨t, ht⟩ : ∃ t, s.loadParts elf = t := ⟨_, rfl⟩
  rw [ht] at hfits
  have hp := himg.parts hbelow ht hfits
  have hf := s.fits himg.align ht hfits
  have hlast := hf.last
  obtain ⟨m1, hupdate⟩ : ∃ m1, updateSymbols t.module (alignTo pageSize s.lastAvailableAddress)
      t.symtabStart elf.symbolCount 0 t.mem = .ok m1 := by
    rcases Nat.eq_zero_or_pos elf.symbolCount with hnone | hpos
    · exact ⟨t.mem, by rw [hnone, updateSymbols]⟩
    · obtain ⟨hoff, hent, hend, hsyms⟩ := hp.symbolTable himg.toWellFormed hf hpos
      refine updateSymbols_ok hoff hent (by omega) (by omega) fun j _ hj htype => ?_
      rw [Nat.zero_add] at hj
      rw [hsyms j hj] at htype ⊢
      rw [hp.length]
      exact himg.defined j hj htype
  obtain ⟨hready, -⟩ := hp.ready himg.toWellFormed hf hupdate
  have hrelocate := hready.relocateTo_eq hp himg hf hbelow
  have hsections : elf.sections.length ≠ 0 := by
    intro hnil
    have hnames := himg.hasNames
    rw [sectionShstringTable, List.length_eq_zero_iff.mp hnil] at hnames
    simp at hnames
  have hsize := add_size_le_pagesEnd t.last
  rw [Loader.install, if_neg hsections]
  simp only [ht, hf.pageAlignUp, hp.symbolEntriesCount himg.toWellFormed, hf.ended]
  rw [hupdate, Except.bind, hrelocate, Except.bind, if_neg]
  · exact ⟨_, _, _, rfl⟩
  · rw [sub32_eq (by omega) hf.inMemory]
    omega

/-- A call of `load_module` that loads the image, which is below the last address. -/
structure Loads (s : Loader) (elf : ElfParser) (length : Nat) (r : Loaded) : Prop where
  call : ∃ name closureName fuel, s.loadModule name elf closureName fuel = .ok r
  loaded : r.descriptor ≠ none
  below : elf.start + length ≤ s.lastAvailableAddress
  fits : plannedEnd s.lastAvailableAddress elf.sections r.module < wordSize

theorem Loads.holds {r : Loaded} (h : Loads s elf length r) (himg : elf.Relocatable s.mem length) :
    elf.Holds s.mem r.module r.loader.mem := by
  obtain ⟨name, closureName, fuel, hcall⟩ := h.call
  rcases loadModule_cases hcall with ⟨hnone, -⟩ | ⟨d, -, hinst⟩
  · exact absurd hnone h.loaded
  · obtain ⟨t, m1, m2, -, hmodule, hp, hf, hready, hsame, hrelocate, -, -, hlast, hmem⟩ :=
      install_contents hinst himg.toWellFormed h.below h.fits
    have hsize := add_size_le_pagesEnd t.last
    rw [hmodule]
    refine hready.holds hp himg hf h.below (fun x hx => ?_) hrelocate fun x hx => ?_
    · rcases Nat.eq_zero_or_pos elf.symbolCount with hnone | hpos
      · exact hsame x (by omega)
      · have := (hp.symbols_bounds hpos).1
        exact hsame x (by omega)
    · rw [hmem, Memory.byte_write_ne _ (.inl (by omega))]

end Loading

/-! ## §4. Two bases. -/

/-- The sections are not aligned to more than a page. -/
def ElfParser.PageAligned (elf : ElfParser) : Prop :=
  ∀ sh ∈ elf.sections, sh.isAlloc = true → sh.addralign ≤ pageSize

/-- An alignment of at most a page divides every number of pages. -/
theorem SectionHeader.AlignOk.dvd {sh : SectionHeader} (hok : sh.AlignOk)
    (hpage : sh.addralign ≤ pageSize) {d : Nat} (hd : pageSize ∣ d) :
    sh.addralign ∣ d ∨ sh.addralign ≤ 1 := by
  rcases hok with hzero | ⟨k, -, hk⟩
  · exact .inr (by omega)
  · left
    rw [hk] at hpage ⊢
    have hle : k ≤ 12 := by
      by_contra hgt
      have : 2 ^ 13 ≤ 2 ^ k := Nat.pow_le_pow_right (by decide) (by omega)
      simp only [pageSize] at hpage
      omega
    exact (pow_dvd_pow 2 hle).trans hd

/-- Sections are placed in the same way at another base. -/
theorem placeSections_shift {shs : List SectionHeader} (hok : ∀ sh ∈ shs, sh.AlignOk)
    (hpage : ∀ sh ∈ shs, sh.isAlloc = true → sh.addralign ≤ pageSize) {base d off : Nat}
    (hd : pageSize ∣ d) (hfits : placedEnd (base + off) (items shs) < wordSize)
    (hfits' : placedEnd (base + d + off) (items shs) < wordSize) {i : Nat} {sh : SectionHeader}
    (hsh : (placeSections base shs off).1[i]? = some sh) (halloc : sh.isAlloc = true) :
    (placeSections (base + d) shs off).1[i]? = some { sh with vaddr := sh.vaddr + d } := by
  induction shs generalizing off i with
  | nil => cases hsh
  | cons sh' shs ih =>
      have hok' := hok sh' List.mem_cons_self
      have hoks : ∀ sh ∈ shs, sh.AlignOk := fun sh h => hok sh (List.mem_cons_of_mem _ h)
      have hpages : ∀ sh ∈ shs, sh.isAlloc = true → sh.addralign ≤ pageSize :=
        fun sh h => hpage sh (List.mem_cons_of_mem _ h)
      -- a section that is not loaded has no place
      cases halloc' : sh'.isAlloc with
      | false =>
          rw [items_cons_other halloc'] at hfits hfits'
          simp only [placeSections, halloc', Bool.false_eq_true, if_false] at hsh ⊢
          cases i with
          | zero =>
              obtain rfl : sh' = sh := by simpa using hsh
              rw [halloc] at halloc'
              cases halloc'
          | succ i => exact ih hoks hpages hfits hfits' (by simpa using hsh)
      | true =>
          rw [items_cons_alloc halloc', placedEnd] at hfits hfits'
          -- both bases are on pages, and no section asks for more, so the padding is the same
          obtain ⟨pos, hpos⟩ : ∃ pos, sh'.item.position (base + off) = pos := ⟨_, rfl⟩
          have hpos' : sh'.item.position (base + d + off) = pos + d := by
            rw [show base + d + off = base + off + d by omega, ← hpos]
            exact sh'.item.position_add (hok'.dvd (hpage sh' List.mem_cons_self halloc') hd) _
          have hle : base + off + sh'.vaddr ≤ pos := hpos ▸ sh'.item.le_position (base + off)
          rw [hpos] at hfits
          rw [hpos'] at hfits'
          have hend := lt_of_le_of_lt (le_placedEnd _ _) hfits
          have hend' := lt_of_le_of_lt (le_placedEnd _ _) hfits'
          have hsize : sh'.item.size = sh'.size := rfl
          rw [placeSections_cons_alloc halloc' hok' hpos (by omega)] at hsh
          rw [placeSections_cons_alloc halloc' hok' hpos' (by omega),
            show pos + d + sh'.size - (base + d) = pos + sh'.size - base by omega]
          cases i with
          | zero =>
              obtain rfl := Option.some.inj (show some _ = some sh from hsh)
              rfl
          | succ i =>
              refine ih hoks hpages ?_ ?_ (by simpa using hsh)
              · rw [show base + (pos + sh'.size - base) = pos + sh'.item.size by omega]
                exact hfits
              · rw [show base + d + (pos + sh'.size - base) = pos + d + sh'.item.size by omega]
                exact hfits'

section TwoBases

variable {s s₂ : Loader} {elf : ElfParser} {length d : Nat} {r r₂ : Loaded}

/-- Where the sections of an image are that was loaded. -/
theorem Loads.placed (h : Loads s elf length r) (hw : elf.WellFormed s.mem length) :
    placedEnd (alignTo pageSize s.lastAvailableAddress) (items elf.sections) < wordSize ∧
    pageAlignUp s.lastAvailableAddress = alignTo pageSize s.lastAvailableAddress ∧
    ∀ (i : Nat) (sh : SectionHeader), elf.sections[i]? = some sh →
      (placeSections (alignTo pageSize s.lastAvailableAddress) elf.sections 0).1[i]?
        = some { sh with vaddr := r.module.vaddrAt i } := by
  obtain ⟨name, closureName, fuel, hcall⟩ := h.call
  rcases loadModule_cases hcall with ⟨hnone, -⟩ | ⟨desc, -, hinst⟩
  · exact absurd hnone h.loaded
  · obtain ⟨t, m1, m2, ht, hmodule, hp, hf, -⟩ := install_contents hinst hw h.below h.fits
    have hfits := h.fits
    rw [hmodule] at hfits ⊢
    obtain ⟨-, hend, -⟩ := loadParts_cases s hw.align ht hfits rfl rfl
    refine ⟨hend, hf.pageAlignUp, fun i sh hsh => ?_⟩
    obtain ⟨v, off, hv, hsh', -⟩ := hp.header i sh hsh
    rw [hv, ElfParser.vaddrAt, hsh', Option.elim_some]

/-- The sections move with the base. -/
theorem Loads.vaddrAt_shift (h : Loads s elf length r) (h₂ : Loads s₂ elf length r₂)
    (hw : elf.WellFormed s.mem length) (hw₂ : elf.WellFormed s₂.mem length)
    (hpage : elf.PageAligned)
    (hd : pageAlignUp s₂.lastAvailableAddress = pageAlignUp s.lastAvailableAddress + d) {i : Nat}
    {sh : SectionHeader} (hsh : elf.sections[i]? = some sh) (halloc : sh.isAlloc = true) :
    r₂.module.vaddrAt i = r.module.vaddrAt i + d := by
  obtain ⟨hend, hbase, hplaced⟩ := h.placed hw
  obtain ⟨hend₂, hbase₂, hplaced₂⟩ := h₂.placed hw₂
  have h1 := alignTo_mod (show 0 < pageSize by decide) s.lastAvailableAddress
  have h2 := alignTo_mod (show 0 < pageSize by decide) s₂.lastAvailableAddress
  rw [hbase, hbase₂] at hd
  obtain ⟨base, hb⟩ : ∃ base, alignTo pageSize s.lastAvailableAddress = base := ⟨_, rfl⟩
  rw [hd] at h2 hend₂ hplaced₂
  rw [hb] at h1 h2 hend hend₂ hplaced hplaced₂
  have hdvd : pageSize ∣ d :=
    (Nat.dvd_add_right (Nat.dvd_of_mod_eq_zero h1)).mp (Nat.dvd_of_mod_eq_zero h2)
  have hget := hplaced₂ i sh hsh
  rw [placeSections_shift hw.align hpage hdvd (show placedEnd (base + 0) _ < wordSize from hend)
    hend₂ (hplaced i sh hsh) halloc] at hget
  have := congrArg SectionHeader.vaddr (Option.some.inj hget)
  exact this.symm

/-- What changes when an image is loaded at a base that is `d` higher: the words of type
`32`, by `d`. -/
structure ElfParser.MovesBy (elf : ElfParser) (file : Memory) (d : Nat) (r r₂ : Loaded) : Prop where
  sections : ∀ (i : Nat) (sh : SectionHeader), elf.sections[i]? = some sh → sh.isAlloc = true →
    r₂.module.vaddrAt i = r.module.vaddrAt i + d
  words : ∀ q ∈ elf.relocations file, q.type = 1 →
    r₂.loader.mem.load32 (r₂.module.wordOf q)
      = (r.loader.mem.load32 (r.module.wordOf q) + d) % wordSize
  bytes : ∀ (i : Nat) (sh : SectionHeader), elf.sections[i]? = some sh → sh.isAlloc = true →
    ∀ k < sh.size, (∀ q ∈ elf.relocations file, q.type = 1 → q.target = i →
        k < q.offset ∨ q.offset + 4 ≤ k) →
      r₂.loader.mem.byte (r₂.module.vaddrAt i + k) = r.loader.mem.byte (r.module.vaddrAt i + k)

/-- The relocations are for symbols of sections that get memory. -/
def ElfParser.InMemory (elf : ElfParser) (file : Memory) : Prop :=
  ∀ q ∈ elf.relocations file, ∃ sh, elf.sections[(elf.symbol file q.symbol).shndx]? = some sh ∧
    sh.isAlloc = true

/-- The address of a symbol moves with its section. -/
theorem ElfParser.addressOf_shift {elf' elf'' : ElfParser} {sym : Symbol}
    (h : elf''.vaddrAt sym.shndx = elf'.vaddrAt sym.shndx + d) :
    elf''.addressOf sym % wordSize = (elf'.addressOf sym + d) % wordSize := by
  rw [addressOf, addressOf, h]
  split
  · rfl
  · simp only [add32, wordSize]
    omega

/-- **An image at two bases.** -/
theorem Loads.movesBy (h : Loads s elf length r) (himg : elf.Relocatable s.mem length)
    (h₂ : Loads s₂ elf length r₂) (hfile : elf.SameFile length s.mem s₂.mem)
    (hpage : elf.PageAligned) (hsyms : elf.InMemory s.mem)
    (hd : pageAlignUp s₂.lastAvailableAddress = pageAlignUp s.lastAvailableAddress + d) :
    elf.MovesBy s.mem d r r₂ := by
  have hw := himg.toWellFormed
  have hvaddr : ∀ (i : Nat) (sh : SectionHeader), elf.sections[i]? = some sh → sh.isAlloc = true →
      r₂.module.vaddrAt i = r.module.vaddrAt i + d := fun i sh hsh halloc =>
    h.vaddrAt_shift h₂ hw (hfile.wellFormed hw) hpage hd hsh halloc
  have hholds := h.holds himg
  have hholds₂ := h₂.holds (hfile.relocatable himg)
  have hrelocs := hfile.relocations hw
  -- a word of each type, from the formulas at the two bases
  have hword : ∀ q ∈ elf.relocations s.mem,
      (q.type = 1 → r₂.loader.mem.load32 (r₂.module.wordOf q)
        = (r.loader.mem.load32 (r.module.wordOf q) + d) % wordSize) ∧
      (q.type ≠ 1 → r₂.loader.mem.load32 (r₂.module.wordOf q)
        = r.loader.mem.load32 (r.module.wordOf q)) := by
    intro q hq
    obtain ⟨target, htarget, halloc⟩ := elf.exists_of_mem_relocations hq
    obtain ⟨hknown, hcount, -⟩ := himg.used q hq
    obtain ⟨sh, hsh, hshalloc⟩ := hsyms q hq
    have hS := ElfParser.addressOf_shift (hvaddr _ _ hsh hshalloc)
    have hP : r₂.module.wordOf q = r.module.wordOf q + d := by
      rw [ElfParser.wordOf, ElfParser.wordOf, hvaddr _ _ htarget halloc]
      omega
    obtain ⟨h0, h1, h2⟩ := hholds.words q hq target htarget
    obtain ⟨h0', h1', h2'⟩ := hholds₂.words q (hrelocs ▸ hq) target htarget
    rw [hfile.fileWord hw (List.mem_of_getElem? htarget) (himg.inSection q hq target htarget)]
      at h0' h1' h2'
    rw [hfile.symbol hw hcount] at h1' h2'
    simp only [wordSize] at hS h1 h1' h2 h2' ⊢
    refine ⟨fun htype => ?_, fun htype => ?_⟩
    · have := h1 htype
      have := h1' htype
      omega
    · obtain hzero | htwo : q.type = 0 ∨ q.type = 2 := by omega
      · rw [h0 hzero, h0' hzero]
      · have := h2 htwo
        have := h2' htwo
        omega
  refine ⟨hvaddr, fun q hq => (hword q hq).1, fun i sh hsh halloc k hk hfree => ?_⟩
  by_cases hin : ∃ q ∈ elf.relocations s.mem, q.target = i ∧ q.offset ≤ k ∧ k < q.offset + 4
  · obtain ⟨q, hq, rfl, hlow, hhigh⟩ := hin
    have htype : q.type ≠ 1 := fun htype => by
      have := hfree q hq htype rfl
      omega
    have := Memory.byte_of_load32_eq ((hword q hq).2 htype) (show k - q.offset < 4 by omega)
    rwa [ElfParser.wordOf, ElfParser.wordOf,
      show r₂.module.vaddrAt q.target + q.offset + (k - q.offset) = r₂.module.vaddrAt q.target + k by
        omega,
      show r.module.vaddrAt q.target + q.offset + (k - q.offset) = r.module.vaddrAt q.target + k by
        omega] at this
  · have hout : ∀ q ∈ elf.relocations s.mem, q.target = i → k < q.offset ∨ q.offset + 4 ≤ k := by
      intro q hq htarget
      by_contra hno
      exact hin ⟨q, hq, htarget, by omega, by omega⟩
    rw [hholds.bytes i sh hsh halloc k hk hout,
      hholds₂.bytes i sh hsh halloc k hk (by rw [hrelocs]; exact hout),
      hfile.fileByte hw (List.mem_of_getElem? hsh) hk]

/-- **Loading is position independent**: a relocatable image that fits is loaded; when it is,
every relocated word is `S + A` or `S + A - P` and every other byte of a section is what the
file has; and when it is loaded at a base that is `d` higher, the words of type `32` change,
by `d`, and nothing else, if no section is aligned to more than a page and the symbols that
are used are in sections that get memory. -/
theorem module_position_independent (himg : elf.Relocatable s.mem length)
    (hbelow : elf.start + length ≤ s.lastAvailableAddress)
    (hfits : plannedEnd s.lastAvailableAddress elf.sections (s.loadParts elf).module < wordSize) :
    (∀ name fuel, moduleAlreadyLoaded s.mem s.lastAvailableAddress name fuel = .ok none →
      ∃ r, s.loadModule name elf none fuel = .ok r ∧ r.descriptor ≠ none) ∧
    ∀ r, Loads s elf length r → elf.Holds s.mem r.module r.loader.mem ∧
      ∀ s₂ r₂ d, Loads s₂ elf length r₂ → elf.SameFile length s.mem s₂.mem →
        elf.PageAligned → elf.InMemory s.mem →
        pageAlignUp s₂.lastAvailableAddress = pageAlignUp s.lastAvailableAddress + d →
        elf.MovesBy s.mem d r r₂ := by
  refine ⟨fun name fuel hnew => ?_, fun r hr => ⟨hr.holds himg, ?_⟩⟩
  · obtain ⟨s', elf', desc, hinst⟩ := himg.install_ok name hbelow hfits
    refine ⟨⟨s', elf', some desc, desc.entryPoint⟩, ?_, by simp⟩
    rw [Loader.loadModule, hnew, Except.bind]
    simp only [hinst, Except.bind]
  · intro s₂ r₂ d hr₂ hfile hpage hsyms hd
    exact hr.movesBy himg hr₂ hfile hpage hsyms hd

end TwoBases

/-! ## §5. An image with two relocations. -/

/-- The file at 0x1000: code with two words to be relocated, data, symbols, relocations,
names of symbols and names of sections.  The last symbol is of the type `info` and in the
section `shndx`. -/
def relocMemory (info shndx : UInt8) : Memory where
  byte x := ([
    0x10, 0, 0, 0, 0xfc, 0xff, 0xff, 0xff, 1, 2, 3, 4, 0, 0, 0, 0,
    5, 6, 7, 8, 0, 0, 0, 0, 0, 0, 0, 0, 0, 0, 0, 0,
    0, 0, 0, 0, 0, 0, 0, 0, 0, 0, 0, 0, 0, 0, 0, 0,
    0, 0, 0, 0, 0, 0, 0, 0, 0, 0, 0, 0, 3, 0, 2, 0,
    1, 0, 0, 0, 2, 0, 0, 0, 0, 0, 0, 0, info, 0, shndx, 0,
    0, 0, 0, 0, 1, 1, 0, 0, 4, 0, 0, 0, 2, 2, 0, 0,
    0, 102, 0, 0, 0, 0, 0, 0, 0, 0, 0, 0, 0, 0, 0, 0,
    0, 46, 115, 116, 114, 116, 97, 98, 0] : List UInt8).getD (x - 0x1000) 0
  stores := []

/-- Its headers; the data is aligned to `align`. -/
def relocImage (align : Nat) : ElfParser where
  start := 0x1000
  entry := 0
  shstrndx := 6
  sections := [
    ⟨0, 0, 0, 0, 0, 0, 0, 0, 0, 0⟩,
    ⟨0, 1, 6, 0, 0, 12, 0, 0, 16, 0⟩,
    ⟨0, 1, 3, 0, 0x10, 4, 0, 0, align, 0⟩,
    ⟨0, 9, 0, 0, 0x50, 16, 4, 1, 4, 8⟩,
    ⟨0, 2, 0, 0, 0x20, 48, 5, 1, 4, 16⟩,
    ⟨1, 3, 0, 0, 0x60, 3, 0, 0, 1, 0⟩,
    ⟨0, 3, 0, 0, 0x70, 9, 0, 0, 1, 0⟩]
  symtab := none
  strtab := none

theorem relocImage_relocations :
    (relocImage 4).relocations (relocMemory 2 2) = [⟨1, 0, 1, 1⟩, ⟨1, 4, 2, 2⟩] := by
  decide +kernel

theorem relocImage_wellFormed : (relocImage 4).WellFormed (relocMemory 2 2) 0x79 where
  symtab := rfl
  strtab := rfl
  inMemory := by decide
  data := by decide
  align := by
    have hpow : ∀ sh ∈ (relocImage 4).sections, sh.addralign = 0 ∨ sh.addralign = 2 ^ 0 ∨
        sh.addralign = 2 ^ 2 ∨ sh.addralign = 2 ^ 4 := by decide
    intro sh hsh
    rcases hpow sh hsh with h | h | h | h
    · exact .inl h
    · exact .inr ⟨0, by decide, h⟩
    · exact .inr ⟨2, by decide, h⟩
    · exact .inr ⟨4, by decide, h⟩
  names shstrtab htab sh hsh := by
    obtain rfl := Option.some.inj htab
    have hname : ∀ sh ∈ (relocImage 4).sections, sh.name = 0 ∨ sh.name = 1 ∧ sh.type = shtStrtab := by
      decide
    rcases hname sh hsh with h | ⟨h, htype⟩
    · rw [h]
      exact ⟨⟨[], noNul_of_all rfl⟩, cstringEquals_iff.mp (by decide +kernel), by decide,
        fun h => absurd h (by decide)⟩
    · rw [h]
      exact ⟨ElfParser.strtabName, cstringEquals_iff.mp (by decide +kernel), by decide, fun _ => htype⟩
  symbols sh hsh := by
    have htable : (relocImage 4).symbolTable = some ⟨0, 2, 0, 0, 0x20, 48, 5, 1, 4, 16⟩ := by decide
    rw [htable] at hsh
    obtain rfl := Option.some.inj hsh
    rfl
  inSection r hr target htarget := by
    rw [relocImage_relocations] at hr
    have hin : ∀ r ∈ ([⟨1, 0, 1, 1⟩, ⟨1, 4, 2, 2⟩] : List Relocation),
        r.target = 1 ∧ r.offset ≤ 8 := by decide
    obtain ⟨hone, hle⟩ := hin r hr
    rw [hone] at htarget
    obtain rfl := Option.some.inj htarget
    simp only
    omega

theorem relocImage_relocatable : (relocImage 4).Relocatable (relocMemory 2 2) 0x79 where
  toWellFormed := relocImage_wellFormed
  hasNames := by decide
  relSections := by decide
  defined := by decide +kernel
  used := by
    rw [relocImage_relocations]
    decide +kernel
  apart := by
    rw [relocImage_relocations]
    decide

/-- The image is loaded behind 0x2010 and behind 0x4fff. -/
theorem relocImage_loads {last : Nat} (h : last = 0x2010 ∨ last = 0x4fff) :
    ∃ r, Loads ⟨relocMemory 2 2, 0, last⟩ (relocImage 4) 0x79 r := by
  have hcall : ((⟨relocMemory 2 2, 0, last⟩ : Loader).loadModule ⟨[97], noNul_of_all rfl⟩ (relocImage 4)
      none 3).map (fun r => (r.descriptor.isSome,
        decide (plannedEnd last (relocImage 4).sections r.module < wordSize)))
      = .ok (true, true) := by
    rcases h with rfl | rfl
    · decide +kernel
    · decide +kernel
  obtain ⟨r, hr, hfacts⟩ := map_eq_ok.mp hcall
  obtain ⟨hsome, hfits⟩ := Prod.mk.inj hfacts
  refine ⟨r, ⟨_, _, _, hr⟩, ?_, ?_, of_decide_eq_true hfits⟩
  · intro hnone
    rw [hnone] at hsome
    cases hsome
  · rcases h with rfl | rfl
    · decide
    · decide

theorem module_position_independent_two_bases :
    ∃ r r₂, Loads ⟨relocMemory 2 2, 0, 0x2010⟩ (relocImage 4) 0x79 r ∧
      Loads ⟨relocMemory 2 2, 0, 0x4fff⟩ (relocImage 4) 0x79 r₂ ∧
      (relocImage 4).Holds (relocMemory 2 2) r.module r.loader.mem ∧
      (relocImage 4).MovesBy (relocMemory 2 2) 0x2000 r r₂ := by
  obtain ⟨r, hr⟩ := relocImage_loads (.inl rfl)
  obtain ⟨r₂, hr₂⟩ := relocImage_loads (.inr rfl)
  obtain ⟨-, hloads⟩ := module_position_independent (s := ⟨relocMemory 2 2, 0, 0x2010⟩)
    relocImage_relocatable (by decide) (by decide +kernel)
  obtain ⟨hholds, hmoves⟩ := hloads r hr
  have hsyms : (relocImage 4).InMemory (relocMemory 2 2) := by
    rw [ElfParser.InMemory, relocImage_relocations]
    have hshndx : ∀ q ∈ ([⟨1, 0, 1, 1⟩, ⟨1, 4, 2, 2⟩] : List Relocation),
        ((relocImage 4).symbol (relocMemory 2 2) q.symbol).shndx = 2 := by decide +kernel
    intro q hq
    rw [hshndx q hq]
    exact ⟨⟨0, 1, 3, 0, 0x10, 4, 0, 0, 4, 0⟩, by decide, by decide⟩
  have hpage : (relocImage 4).PageAligned := by
    rw [ElfParser.PageAligned]
    decide
  exact ⟨r, r₂, hr, hr₂, hholds, hmoves _ _ 0x2000 hr₂ (fun _ _ => rfl) hpage hsyms (by decide)⟩

theorem noNul_a : ∀ b ∈ ([97] : List UInt8), b ≠ 0 := noNul_of_all rfl

/-- A call that loads the image: where code and data are, the second word of the code, and
the second byte of that word. -/
def relocatedWord (m : Memory) (elf : ElfParser) (last : Nat) :
    Except Halt (Nat × Nat × Nat × UInt8) :=
  ((⟨m, 0, last⟩ : Loader).loadModule ⟨[97], noNul_a⟩ elf none 3).map fun r =>
    (r.module.vaddrAt 1, r.module.vaddrAt 2, r.loader.mem.load32 (r.module.vaddrAt 1 + 4),
      r.loader.mem.byte (r.module.vaddrAt 1 + 5))

/-- The word should be `0x300c + 2 - 4 - 0x3004`. -/
theorem not_holds_of_word {m : Memory} {elf : ElfParser} {target : SectionHeader} {w : Nat}
    {b : UInt8} (hcall : relocatedWord m elf 0x2010 = .ok (0x3000, 0x300c, w, b)) (hw : w ≠ 6)
    (hrel : ⟨1, 4, 2, 2⟩ ∈ elf.relocations m) (htarget : elf.sections[1]? = some target)
    (hfile : elf.fileWord m target 4 = 0xfffffffc) (hvalue : (elf.symbol m 2).value = 2)
    (hshndx : (elf.symbol m 2).shndx = 2) (htype : (elf.symbol m 2).type ≠ sttSection) :
    ∃ r, (⟨m, 0, 0x2010⟩ : Loader).loadModule ⟨[97], noNul_of_all rfl⟩ elf none 3 = .ok r ∧
      ¬ elf.Holds m r.module r.loader.mem := by
  obtain ⟨r, hr, hfacts⟩ := map_eq_ok.mp hcall
  simp only [Prod.mk.injEq] at hfacts
  obtain ⟨hcode, hdata, hword, -⟩ := hfacts
  refine ⟨r, hr, fun hholds => hw ?_⟩
  have hformula := (hholds.words _ hrel target htarget).2.2 rfl
  have hS : r.module.addressOf (elf.symbol m 2) = 0x300e := by
    rw [ElfParser.addressOf, if_neg htype, hvalue, hshndx, hdata]
    decide
  rw [hS, hfile, ElfParser.wordOf, hcode] at hformula
  rw [hcode] at hword
  rw [hword] at hformula
  have : (w : Int) = 6 := hformula
  omega

/-- A byte of the word is not the same at the two bases. -/
theorem not_movesBy_of_byte {m : Memory} {elf : ElfParser} {sh : SectionHeader} {b c : UInt8}
    (hcall : (relocatedWord m elf 0x2010).map (·.2.2.2) = .ok b)
    (hcall' : (relocatedWord m elf 0x3010).map (·.2.2.2) = .ok c) (hb : c ≠ b)
    (hsh : elf.sections[1]? = some sh) (halloc : sh.isAlloc = true) (hsize : 5 < sh.size)
    (hrel : ∀ q ∈ elf.relocations m, q.type = 1 → q.offset = 0) :
    ∃ r r₂, (⟨m, 0, 0x2010⟩ : Loader).loadModule ⟨[97], noNul_of_all rfl⟩ elf none 3 = .ok r ∧
      (⟨m, 0, 0x3010⟩ : Loader).loadModule ⟨[97], noNul_of_all rfl⟩ elf none 3 = .ok r₂ ∧
      ¬ elf.MovesBy m 0x1000 r r₂ := by
  obtain ⟨_, hword, rfl⟩ := map_eq_ok.mp hcall
  obtain ⟨_, hword', rfl⟩ := map_eq_ok.mp hcall'
  obtain ⟨r, hr, rfl⟩ := map_eq_ok.mp hword
  obtain ⟨r₂, hr₂, rfl⟩ := map_eq_ok.mp hword'
  refine ⟨r, r₂, hr, hr₂, fun hmoves => hb ?_⟩
  refine hmoves.bytes 1 sh hsh halloc 5 hsize fun q hq htype _ => ?_
  rw [hrel q hq htype]
  exact .inr (by omega)

/-- **Where it is not so**: a symbol of a type above that of section symbols keeps the value
of the file, and without names for the sections nothing is relocated.  With a section that
is aligned to two pages, or a symbol of a section that gets no memory, a word of type `PC32`
depends on the base. -/
theorem relocation_limits :
    (∀ m elf, (m, elf) ∈ [(relocMemory 6 2, relocImage 4),
        (relocMemory 2 2, { relocImage 4 with shstrndx := 0 })] →
      elf.relocations m = [⟨1, 0, 1, 1⟩, ⟨1, 4, 2, 2⟩] ∧
      (elf.symbol m 2).value = 2 ∧ (elf.symbol m 2).shndx = 2 ∧
      ∃ r, (⟨m, 0, 0x2010⟩ : Loader).loadModule ⟨[97], noNul_of_all rfl⟩ elf none 3 = .ok r ∧
        ¬ elf.Holds m r.module r.loader.mem) ∧
    ∀ m elf, (m, elf) ∈ [(relocMemory 2 2, relocImage 8192), (relocMemory 2 3, relocImage 4)] →
      pageAlignUp 0x3010 = pageAlignUp 0x2010 + 0x1000 ∧
      ∃ r r₂, (⟨m, 0, 0x2010⟩ : Loader).loadModule ⟨[97], noNul_of_all rfl⟩ elf none 3 = .ok r ∧
        (⟨m, 0, 0x3010⟩ : Loader).loadModule ⟨[97], noNul_of_all rfl⟩ elf none 3 = .ok r₂ ∧
        ¬ elf.MovesBy m 0x1000 r r₂ := by
  refine ⟨fun m elf hmem => ?_, fun m elf hmem => ⟨by decide, ?_⟩⟩
  · simp only [List.mem_cons, Prod.mk.injEq, List.not_mem_nil, or_false] at hmem
    rcases hmem with ⟨rfl, rfl⟩ | ⟨rfl, rfl⟩
    · refine ⟨by decide +kernel, by decide +kernel, by decide +kernel, ?_⟩
      exact not_holds_of_word (w := 0xffffcffa) (b := 207) (by decide +kernel) (by decide)
        (by decide +kernel) rfl (by decide +kernel) (by decide +kernel) (by decide +kernel)
        (by decide +kernel)
    · refine ⟨by decide +kernel, by decide +kernel, by decide +kernel, ?_⟩
      exact not_holds_of_word (w := 0xfffffffc) (b := 255) (by decide +kernel) (by decide)
        (by decide +kernel) rfl (by decide +kernel) (by decide +kernel) (by decide +kernel)
        (by decide +kernel)
  · simp only [List.mem_cons, Prod.mk.injEq, List.not_mem_nil, or_false] at hmem
    rcases hmem with ⟨rfl, rfl⟩ | ⟨rfl, rfl⟩
    · exact not_movesBy_of_byte (b := 15) (c := 31) (by decide +kernel) (by decide +kernel)
        (by decide) rfl (by decide) (by decide) (by decide +kernel)
    · exact not_movesBy_of_byte (b := 207) (c := 191) (by decide +kernel) (by decide +kernel)
        (by decide) rfl (by decide) (by decide) (by decide +kernel)

end Metta.ModuleLoader
