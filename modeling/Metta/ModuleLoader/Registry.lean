/-
  Metta.ModuleLoader.Registry — the list of loaded modules.

  The descriptors are a chain through memory, from the end of the newest
  module on.  A name is read from its field on to the first NUL; a name of 32
  bytes or more has none in the field, and what comes behind it is read too.

    • `Readable` — when a name is read as it was given,
    • `Chain` — the descriptors in memory, and the loops over them,
    • `SymbolsAt` — the symbols of a module and their names, `findSymbol_eq`,
    • `Registry` — what is so between calls,
    • `Calls`, `loadedNames` — a run, and the names of what it has loaded,
    • `registry_of_modules` — they are listed, and found again,
    • `long_name_is_lost` — a name of 32 bytes.
-/
import Metta.ModuleLoader.PositionIndependence

namespace Metta.ModuleLoader

open Metta.Machine

/-! ## §1. A descriptor in memory. -/

namespace ModuleDescriptor

theorem length_nameField (name : Text) : (nameField name).length = 32 := by
  simp only [nameField, List.length_append, List.length_take, List.length_replicate]
  omega

variable {m : Memory} {a : Nat} {d : ModuleDescriptor}

/-- What comes behind the magic number: the name, `previous` and the name of the entry, which
is not set. -/
theorem hasBytes_name (h : HasBytes m a d.bytes) :
    HasBytes m (a + 4) (nameField d.name) ∧ HasBytes m (a + 36) (le32 d.previous ++ [0]) := by
  simp only [bytes, hasBytes_append, List.length_append, length_le32, length_nameField,
    Nat.add_assoc] at h ⊢
  obtain ⟨⟨⟨⟨⟨⟨⟨⟨-, h1⟩, h2⟩, h3⟩, -⟩, -⟩, -⟩, -⟩, -⟩ := h
  exact ⟨h1, h2, hasBytes_cons.mpr ⟨h3.byte (i := 0) rfl, hasBytes_nil _ _⟩⟩

/-- The words of a descriptor. -/
theorem hasBytes_words (h : HasBytes m a d.bytes) :
    m.load32 a = magic ∧ m.load32 (a + 36) = d.previous % wordSize ∧
    m.load32 (a + 44) = d.loadBase % wordSize ∧ m.load32 (a + 56) = d.symtabStart % wordSize ∧
    m.load32 (a + 60) = d.strtabStart % wordSize := by
  simp only [bytes, hasBytes_append, List.length_append, length_le32, length_nameField] at h
  obtain ⟨⟨⟨⟨⟨⟨⟨⟨h0, -⟩, h2⟩, -⟩, h4⟩, -⟩, -⟩, h7⟩, h8⟩ := h
  refine ⟨?_, h2.load32, h4.load32, h7.load32, h8.load32⟩
  rw [h0.load32]
  decide

/-- The name is in its field with a NUL, or the rest of it and the NUL are what comes behind
the field. -/
def Readable (name : Text) (previous : Nat) : Prop :=
  name.bytes.length < 32 ∨ name.bytes.drop 32 ++ [0] <+: le32 previous ++ [0]

/-- **A readable name** is read as it was given. -/
theorem Readable.hasBytes (hname : Readable d.name d.previous) (h : HasBytes m a d.bytes) :
    HasBytes m (a + 4) d.name.terminated := by
  obtain ⟨hfield, hbehind⟩ := hasBytes_name h
  by_cases hlen : d.name.bytes.length < 32
  · refine hfield.of_prefix ?_
    rw [nameField, List.take_of_length_le (by simp; omega)]
    exact List.prefix_append _ _
  · -- the field ends in the name
    have hlong := hname.resolve_left hlen
    have hsplit : d.name.terminated = d.name.bytes.take 32 ++ (d.name.bytes.drop 32 ++ [0]) := by
      rw [← List.append_assoc, List.take_append_drop, Text.terminated]
    have htake : (d.name.bytes.take 32).length = 32 := by
      rw [List.length_take]
      omega
    rw [hsplit, hasBytes_append, htake]
    refine ⟨hfield.of_prefix ?_, hbehind.of_prefix hlong⟩
    rw [nameField, Text.terminated, List.take_append_of_le_length (by omega)]
    exact List.prefix_append _ _

end ModuleDescriptor

open ModuleDescriptor (Readable)

/-! ## §2. The chain of descriptors. -/

/-- A descriptor and where it is. -/
structure Entry where
  address : Nat
  descriptor : ModuleDescriptor

/-- The name of the module. -/
def Entry.name (e : Entry) : Text := e.descriptor.name

/-- The descriptors from the one at an address on. -/
def Chain (m : Memory) : Nat → List Entry → Prop
  | a, [] => a = 0
  | a, e :: es => a ≠ 0 ∧ a + ModuleDescriptor.size < wordSize ∧ e.address = a ∧
      HasBytes m a e.descriptor.bytes ∧ e.descriptor.previous < wordSize ∧
      Readable e.name e.descriptor.previous ∧ Chain m e.descriptor.previous es

section Chain

variable {m m' : Memory} {a : Nat} {es : List Entry}

/-- A chain is where it was when nothing is written below `bound`. -/
theorem Chain.congr {bound : Nat} (h : Chain m a es)
    (hbelow : ∀ e ∈ es, e.address + ModuleDescriptor.size ≤ bound)
    (hm : ∀ x < bound, m'.byte x = m.byte x) : Chain m' a es := by
  induction es generalizing a with
  | nil => exact h
  | cons e es ih =>
      obtain ⟨hne, hlt, rfl, hbytes, hprev, hname, hrest⟩ := h
      have hbound := hbelow e List.mem_cons_self
      refine ⟨hne, hlt, rfl, hbytes.congr fun x _ hx => hm x ?_, hprev, hname,
        ih hrest fun e' he' => hbelow e' (List.mem_cons_of_mem _ he')⟩
      rw [ModuleDescriptor.length_bytes] at hx
      exact lt_of_lt_of_le hx hbound

/-- What the loops over the descriptors read of the first one. -/
theorem Chain.head {e : Entry} (h : Chain m a (e :: es)) :
    a ≠ 0 ∧ m.load32 a = magic ∧ add32 a 4 = a + 4 ∧ e.address = a ∧
    HasBytes m (a + 4) e.name.terminated ∧ Chain m (m.load32 (add32 a 36)) es := by
  obtain ⟨hne, hlt, haddr, hbytes, hprev, hname, hrest⟩ := h
  obtain ⟨hmagic, hprevious, -⟩ := ModuleDescriptor.hasBytes_words hbytes
  rw [ModuleDescriptor.size] at hlt
  refine ⟨hne, hmagic, add32_eq (by omega), haddr, hname.hasBytes hbytes, ?_⟩
  rwa [add32_eq (by omega), hprevious, Nat.mod_eq_of_lt hprev]

/-- The loop finds the first module with the name. -/
theorem findDescriptor_eq (h : Chain m a es) (name : Text) {fuel : Nat} (hfuel : es.length < fuel) :
    findDescriptor m name fuel a = .ok ((es.find? (·.name = name)).map Entry.address) := by
  induction es generalizing a fuel with
  | nil =>
      obtain ⟨fuel, rfl⟩ := Nat.exists_eq_succ_of_ne_zero (Nat.ne_zero_of_lt hfuel)
      rw [findDescriptor, if_pos (show a = 0 from h)]
      rfl
  | cons e es ih =>
      obtain ⟨fuel, rfl⟩ := Nat.exists_eq_succ_of_ne_zero (Nat.ne_zero_of_lt hfuel)
      obtain ⟨hne, hmagic, hadd, haddr, hname, hrest⟩ := h.head
      rw [findDescriptor, if_neg hne, if_neg (not_not.mpr hmagic), hadd]
      by_cases heq : e.name = name
      · rw [if_pos (cstringEquals_iff.mpr (heq ▸ hname)), List.find?_cons_of_pos (by simpa using heq),
          Option.map_some, haddr]
      · have hno : ¬ cstringEquals m name (a + 4) = true := fun hyes =>
          heq (hname.text_unique (cstringEquals_iff.mp hyes))
        rw [if_neg hno, List.find?_cons_of_neg (by simpa using heq)]
        exact ih hrest (by simpa using hfuel)

/-- More fuel does not change what was found. -/
theorem findDescriptor_mono {name : Text} {fuel : Nat} {r : Option Nat} (k : Nat)
    (h : findDescriptor m name fuel a = .ok r) : findDescriptor m name (fuel + k) a = .ok r := by
  induction fuel generalizing a with
  | zero => cases h
  | succ fuel ih =>
      rw [Nat.add_right_comm]
      rw [findDescriptor] at h ⊢
      by_cases hnull : a = 0
      · rwa [if_pos hnull] at h ⊢
      · rw [if_neg hnull] at h ⊢
        by_cases hmagic : m.load32 a ≠ magic
        · rwa [if_pos hmagic] at h ⊢
        · rw [if_neg hmagic] at h ⊢
          by_cases hsame : cstringEquals m name (add32 a 4) = true
          · rwa [if_pos hsame] at h ⊢
          · rw [if_neg hsame] at h ⊢
            exact ih h

theorem findDescriptor_of_ok (h : Chain m a es) {name : Text} {fuel : Nat} {r : Option Nat}
    (hfound : findDescriptor m name fuel a = .ok r) :
    r = (es.find? (·.name = name)).map Entry.address := by
  have hmore := findDescriptor_mono (es.length + 1) hfound
  rw [findDescriptor_eq h name (by omega)] at hmore
  exact (Except.ok.inj hmore).symm

/-- The loop of `loaded_module_names` lists the chain. -/
theorem namesFrom_eq (h : Chain m a es) {fuel : Nat} (hfuel : es.length < fuel) :
    namesFrom m fuel a = .ok (es.map (·.address + 4)) := by
  induction es generalizing a fuel with
  | nil =>
      obtain ⟨fuel, rfl⟩ := Nat.exists_eq_succ_of_ne_zero (Nat.ne_zero_of_lt hfuel)
      rw [namesFrom, if_pos (show a = 0 from h)]
      rfl
  | cons e es ih =>
      obtain ⟨fuel, rfl⟩ := Nat.exists_eq_succ_of_ne_zero (Nat.ne_zero_of_lt hfuel)
      obtain ⟨hne, hmagic, hadd, haddr, -, hrest⟩ := h.head
      rw [namesFrom, if_neg hne, if_neg (not_not.mpr hmagic), hadd, ih hrest (by simpa using hfuel),
        List.map_cons, haddr]
      rfl

/-- Every descriptor of the chain is in memory. -/
theorem Chain.mem {e : Entry} (h : Chain m a es) (he : e ∈ es) :
    e.address + ModuleDescriptor.size < wordSize ∧ HasBytes m e.address e.descriptor.bytes := by
  induction es generalizing a with
  | nil => cases he
  | cons e' es ih =>
      obtain ⟨-, hlt, rfl, hbytes, -, -, hrest⟩ := h
      rcases List.mem_cons.mp he with rfl | he
      · exact ⟨hlt, hbytes⟩
      · exact ih hrest he

/-- The names in memory are those of the chain. -/
theorem Chain.names (h : Chain m a es) :
    List.Forall₂ (fun b name => HasBytes m b (Text.terminated name)) (es.map (·.address + 4))
      (es.map Entry.name) := by
  induction es generalizing a with
  | nil => exact List.Forall₂.nil
  | cons e es ih =>
      obtain ⟨-, -, -, haddr, hname, hrest⟩ := h.head
      rw [List.map_cons, List.map_cons, haddr]
      exact List.Forall₂.cons hname (ih hrest)

end Chain

/-! ## §3. Symbols by their names. -/

/-- The value of the first symbol with the name; 0 when there is none. -/
def valueOf (str : Text) : List (Text × Symbol) → Except Halt Nat
  | [] => .ok 0
  | (name, sym) :: rest =>
      if name = str then if sym.type = sttSection then .error .sectionNames else .ok sym.value
      else valueOf str rest

/-- The symbols and their names in the tables whose headers are at `symtab` and `strtab`. -/
structure SymbolsAt (m : Memory) (base symtab strtab : Nat) (table : List (Text × Symbol)) :
    Prop where
  hasSymbols : symtab ≠ 0
  hasStrings : strtab ≠ 0
  inMemory : symtab + 40 + 16 * table.length < wordSize
  headerBelow : strtab + 40 < wordSize
  offset : add32 base (m.load32 (symtab + 16)) = symtab + 40
  size : m.load32 (symtab + 20) / 16 = table.length
  entsize : m.load32 (symtab + 36) = 16
  strings : add32 base (m.load32 (strtab + 16)) = strtab + 40
  symbols : ∀ (i : Nat) (name : Text) (sym : Symbol), table[i]? = some (name, sym) →
    symbolAt m (symtab + 40 + 16 * i) = sym ∧ strtab + 40 + sym.name < wordSize ∧
    HasBytes m (strtab + 40 + sym.name) name.terminated

/-- The loop of `find_symbol` goes over the table. -/
theorem findSymbolFrom_eq {m : Memory} {base symtab strtab : Nat} {table : List (Text × Symbol)}
    (h : SymbolsAt m base symtab strtab table) (str : Text) {n i : Nat}
    (hn : i + n = table.length) :
    findSymbolFrom m base symtab strtab str n i = valueOf str (table.drop i) := by
  induction n generalizing i with
  | zero => rw [findSymbolFrom, List.drop_eq_nil_of_le (by omega), valueOf]
  | succ n ih =>
      obtain ⟨⟨name, sym⟩, hget⟩ : ∃ e, table[i]? = some e :=
        ⟨_, List.getElem?_eq_getElem (show i < table.length by omega)⟩
      obtain ⟨hsym, hlt, hname⟩ := h.symbols i name sym hget
      have hbelow := h.inMemory
      have hstrtab := h.headerBelow
      have haddr : add32 (symtab + 40) (i * 16) = symtab + 40 + 16 * i := by
        rw [Nat.mul_comm, add32_eq (by omega)]
      have hload : m.load32 (symtab + 40 + 16 * i) = sym.name := by rw [← hsym, symbolAt]
      rw [findSymbolFrom, add32_eq (show symtab + 16 < wordSize by omega),
        add32_eq (show symtab + 36 < wordSize by omega),
        add32_eq (show strtab + 16 < wordSize by omega), h.offset, h.entsize, h.strings]
      simp only [haddr, hload, add32_eq hlt]
      rw [List.drop_eq_getElem_cons (show i < table.length by omega),
        (List.getElem?_eq_some_iff.mp hget).2, valueOf]
      by_cases heq : name = str
      · rw [if_pos heq, if_pos (cstringEquals_iff.mpr (heq ▸ hname)),
          symbolType_eq m (by omega), add32_eq (by omega), hsym, ← hsym, symbolAt]
      · have hno : ¬ cstringEquals m str (strtab + 40 + sym.name) = true := fun hyes =>
          heq (hname.text_unique (cstringEquals_iff.mp hyes))
        rw [if_neg heq, if_neg hno, ih (by omega)]

/-- **A symbol is looked up** in the table. -/
theorem findSymbol_eq {m : Memory} {base symtab strtab : Nat} {table : List (Text × Symbol)}
    (h : SymbolsAt m base symtab strtab table) (str : Text) :
    findSymbol m base symtab strtab str = valueOf str table := by
  have hbelow := h.inMemory
  rw [findSymbol, if_neg (not_or.mpr ⟨h.hasSymbols, h.hasStrings⟩),
    add32_eq (show symtab + 36 < wordSize by omega), h.entsize, if_neg (by decide),
    add32_eq (show symtab + 20 < wordSize by omega), h.size, findSymbolFrom_eq h str (by omega),
    List.drop_zero]

/-- An image in which the name of every symbol ends in the string table. -/
structure ElfParser.Loadable (elf : ElfParser) (m : Memory) (length : Nat) : Prop
    extends elf.WellFormed m length where
  symbolNames : ∀ sh ∈ elf.sections, elf.IsStrtab m sh → ∀ i < elf.symbolCount,
    ∃ t : Text, HasBytes m (elf.start + sh.offset + (elf.symbol m i).name) t.terminated ∧
      (elf.symbol m i).name + t.terminated.length ≤ sh.size

/-- The same bytes are the same image. -/
theorem ElfParser.SameFile.loadable {elf : ElfParser} {length : Nat} {m m' : Memory}
    (h : elf.SameFile length m m') (himg : elf.Loadable m length) : elf.Loadable m' length where
  toWellFormed := h.wellFormed himg.toWellFormed
  symbolNames sh hsh hstrtab i hi := by
    -- the section has the name in both memories
    obtain ⟨shstrtab, htab, hstrtab'⟩ := hstrtab
    obtain ⟨t, ht, hin, -⟩ := himg.names shstrtab htab sh hsh
    have ht' : HasBytes m' (elf.start + shstrtab.offset + sh.name) t.terminated :=
      ht.congr fun x hx1 hx2 => by
        have := h (x - elf.start) (by omega)
        rwa [Nat.add_sub_cancel' (by omega)] at this
    have hname := ht'.text_unique hstrtab'
    have hstr : elf.IsStrtab m sh := ⟨shstrtab, htab, hname ▸ ht⟩
    obtain ⟨u, hu, hsize⟩ := himg.symbolNames sh hsh hstr i hi
    have htype := himg.type_of_isStrtab hsh hstr
    have hdata := himg.data sh hsh (by rw [htype]; decide)
    rw [h.symbol himg.toWellFormed hi]
    refine ⟨u, hu.congr fun x hx1 hx2 => ?_, hsize⟩
    have := h (x - elf.start) (by omega)
    rwa [Nat.add_sub_cancel' (by omega)] at this

/-- The tables of a module, as long as nothing is written below `bound`. -/
def ModuleDescriptor.TablesKept (d : ModuleDescriptor) (m : Memory) (bound : Nat) : Prop :=
  d.loadBase < wordSize ∧ d.symtabStart < wordSize ∧ d.strtabStart < wordSize ∧
  (d.symtabStart ≠ 0 → d.strtabStart ≠ 0 → ∃ table, ∀ m' : Memory,
    (∀ x < bound, m'.byte x = m.byte x) → SymbolsAt m' d.loadBase d.symtabStart d.strtabStart table)

/-- What is found in the tables of a module stays so. -/
theorem ModuleDescriptor.TablesKept.findSymbol {d : ModuleDescriptor} {m m' : Memory} {bound : Nat}
    (h : d.TablesKept m bound) (hm : ∀ x < bound, m'.byte x = m.byte x) (str : Text) :
    findSymbol m' d.loadBase d.symtabStart d.strtabStart str
      = findSymbol m d.loadBase d.symtabStart d.strtabStart str := by
  by_cases hnone : d.symtabStart = 0 ∨ d.strtabStart = 0
  · rw [ModuleLoader.findSymbol, ModuleLoader.findSymbol, if_pos hnone, if_pos hnone]
  · obtain ⟨hsymtab, hstrtab⟩ := not_or.mp hnone
    obtain ⟨table, htable⟩ := h.2.2.2 hsymtab hstrtab
    rw [findSymbol_eq (htable m' hm), findSymbol_eq (htable m fun _ _ => rfl)]

theorem ModuleDescriptor.TablesKept.mono {d : ModuleDescriptor} {m m' : Memory} {bound bound' : Nat}
    (h : d.TablesKept m bound) (hle : bound ≤ bound') (hm : ∀ x < bound, m'.byte x = m.byte x) :
    d.TablesKept m' bound' := by
  obtain ⟨hbase, hsymtab, hstrtab, htable⟩ := h
  refine ⟨hbase, hsymtab, hstrtab, fun h1 h2 => ?_⟩
  obtain ⟨table, htable⟩ := htable h1 h2
  refine ⟨table, fun m'' hm'' => htable m'' fun x hx => ?_⟩
  rw [hm'' x (by omega), hm x hx]

section Install

variable {s : Loader} {elf : ElfParser} {length : Nat} {t : Tables}

theorem ElfParser.updated_name (elf : ElfParser) (sym : Symbol) : (elf.updated sym).name = sym.name := by
  rw [ElfParser.updated]
  split
  · rfl
  · rfl

/-- **The tables of a module that was loaded**: every memory with the tables of `t`, the
symbols updated, has the symbols of the image. -/
theorem Parts.symbolsAt (hp : Parts s elf t) (himg : elf.Loadable s.mem length)
    (hf : Fits s elf t) (hsymtab : t.symtabStart ≠ 0) (hstrtab : t.strtabStart ≠ 0) :
    ∃ table, ∀ m m' : Memory, Ready s elf t m →
      (∀ x, (x < t.symtabStart + 40 ∨ t.symtabStart + 40 + 16 * elf.symbolCount ≤ x) →
        m.byte x = t.mem.byte x) →
      (∀ x, sectionsEnd s.lastAvailableAddress elf.sections ≤ x → x < t.last →
        m'.byte x = m.byte x) →
      SymbolsAt m' (alignTo pageSize s.lastAvailableAddress) t.symtabStart t.strtabStart table := by
  obtain ⟨i, sh, hi, hsh, hsize⟩ := hp.hasSymbols hsymtab
  obtain ⟨j, strsh, hj, hstrsh⟩ := hp.hasStrings hstrtab
  obtain ⟨hsyms, hsymsEnd, hsymAt, -⟩ := hp.symbols i sh hi hsh hsize
  obtain ⟨hstrs, hapart, hstrsEnd, hstrAt, hisStrtab⟩ := hp.strings j strsh hj hstrsh
  have hbehind := hapart i sh hi hsh hsize
  have htable : elf.symbolTable = some sh := by
    rw [ElfParser.symbolTable, hi, Option.bind_some, hsh]
  have hcount : elf.symbolCount = sh.size / 16 := by
    rw [ElfParser.symbolCount, htable, Option.elim_some]
  have hlast := hf.last
  have hname : ∀ i, ∃ t : Text, i < elf.symbolCount →
      HasBytes s.mem (elf.start + strsh.offset + (elf.symbol s.mem i).name) t.terminated ∧
      (elf.symbol s.mem i).name + t.terminated.length ≤ strsh.size := by
    intro i
    by_cases hi : i < elf.symbolCount
    · obtain ⟨t, ht⟩ := himg.symbolNames strsh (List.mem_of_getElem? hstrsh) hisStrtab i hi
      exact ⟨t, fun _ => ht⟩
    · exact ⟨⟨[], by simp⟩, fun h => absurd h hi⟩
  choose name hname using hname
  refine ⟨(List.range elf.symbolCount).map fun i =>
    (name i, t.module.updated (elf.symbol s.mem i)), fun m m' hready hsame hm' => ?_⟩
  -- the headers are as they were loaded, the names too
  have hheader : ∀ x, (t.symtabStart ≤ x ∧ x < t.symtabStart + 40) ∨
      (t.strtabStart ≤ x ∧ x < t.strtabStart + 40 + strsh.size) → m'.byte x = t.mem.byte x := by
    intro x hx
    rw [hm' x (by omega) (by omega), hsame x (by omega)]
  have hword : ∀ k, k + 4 ≤ 40 → m'.load32 (t.symtabStart + k) = t.mem.load32 (t.symtabStart + k) ∧
      m'.load32 (t.strtabStart + k) = t.mem.load32 (t.strtabStart + k) := fun k hk =>
    ⟨Memory.load32_congr fun x _ _ => hheader x (by omega),
      Memory.load32_congr fun x _ _ => hheader x (by omega)⟩
  constructor
  · exact hsymtab
  · exact hstrtab
  · rw [List.length_map, List.length_range]
    omega
  · omega
  · rw [(hword 16 (by omega)).1, hsymAt.offset]
    exact add32_sub32 (by omega)
  · rw [(hword 20 (by omega)).1, hsymAt.size, Nat.mod_eq_of_lt (by omega), List.length_map,
      List.length_range, hcount]
  · rw [(hword 36 (by omega)).1, hsymAt.entsize, himg.symbols sh htable]
    decide
  · rw [(hword 16 (by omega)).2, hstrAt.offset]
    exact add32_sub32 (by omega)
  · intro k kname sym hget
    rw [List.getElem?_map, Option.map_eq_some_iff] at hget
    obtain ⟨k', hk', heq⟩ := hget
    obtain ⟨hlt, hk'⟩ := List.getElem?_eq_some_iff.mp hk'
    rw [List.length_range] at hlt
    rw [List.getElem_range] at hk'
    obtain ⟨rfl, rfl⟩ := Prod.mk.inj heq
    subst hk'
    obtain ⟨hbytes, hin⟩ := hname k hlt
    rw [Text.length_terminated] at hin
    rw [ElfParser.updated_name]
    refine ⟨?_, by omega, fun b hb => ?_⟩
    · rw [symbolAt_congr fun x _ _ => hm' x (by omega) (by omega), hready.symbols k hlt]
    · rw [Text.length_terminated] at hb
      have hdata := hstrAt.data ((elf.symbol s.mem k).name + b) (by omega)
      rw [← Nat.add_assoc, ← Nat.add_assoc] at hdata
      rw [hheader _ (by omega), hdata, hbytes b (by rw [Text.length_terminated]; exact hb)]

/-- Where the tables are. -/
theorem Parts.tables_lt (hp : Parts s elf t) (hf : Fits s elf t) :
    t.symtabStart < wordSize ∧ t.strtabStart < wordSize := by
  have hlast := hf.last
  constructor
  · by_cases hnone : t.symtabStart = 0
    · rw [hnone]
      decide
    · obtain ⟨i, sh, hi, hsh, hsize⟩ := hp.hasSymbols hnone
      have := (hp.symbols i sh hi hsh hsize).2.1
      omega
  · by_cases hnone : t.strtabStart = 0
    · rw [hnone]
      decide
    · obtain ⟨j, sh, hj, hsh⟩ := hp.hasStrings hnone
      have := (hp.strings j sh hj hsh).2.2.1
      omega

/-- The newest descriptor, if there is one. -/
def Loader.newest (s : Loader) : Nat :=
  let newest := sub32 s.lastAvailableAddress ModuleDescriptor.size
  if s.mem.load32 newest = magic then newest else 0

/-- **What a module leaves** when it is loaded: what was there, and its descriptor with its
tables at the end. -/
theorem install_registers {s' : Loader} {name : Text} {elf' : ElfParser} {d : ModuleDescriptor}
    (h : s.install name elf = .ok (s', elf', d)) (himg : elf.Loadable s.mem length)
    (hbelow : elf.start + length ≤ s.lastAvailableAddress)
    (hfits : plannedEnd s.lastAvailableAddress elf.sections elf' < wordSize)
    (hroom : ModuleDescriptor.size ≤ s.lastAvailableAddress) :
    s.lastAvailableAddress + ModuleDescriptor.size ≤ s'.lastAvailableAddress ∧
    s'.lastAvailableAddress < wordSize ∧
    (∀ x < s.lastAvailableAddress, s'.mem.byte x = s.mem.byte x) ∧
    HasBytes s'.mem (s'.lastAvailableAddress - ModuleDescriptor.size) d.bytes ∧
    d.name = name ∧ d.previous = s.newest ∧ d.TablesKept s'.mem s'.lastAvailableAddress := by
  obtain ⟨t, m1, m2, -, -, hp, hf, hready, hsame, -, hstored, rfl, hlast', hmem'⟩ :=
    install_contents h himg.toWellFormed hbelow hfits
  have hsize := add_size_le_pagesEnd t.last
  have hsections := hf.sections
  have hle := le_sectionsEnd s.lastAvailableAddress elf.sections
  have hin := hf.inMemory
  have hdlen := (s.descriptor name elf t m2).length_bytes
  obtain ⟨hsymtab, hstrtab⟩ := hp.tables_lt hf
  -- the descriptor is behind the tables, the relocated words are in the sections
  have hdescriptor : ∀ x < t.last, s'.mem.byte x = m2.byte x := by
    intro x hx
    rw [hmem', Memory.byte_write_ne _ (by rw [ModuleDescriptor.size] at hsize ⊢; omega)]
  have hm2 : ∀ x < s.lastAvailableAddress, m2.byte x = s.mem.byte x := fun x hx => by
    rw [hp.byte_of_stored himg.toWellFormed hstored (.inl hx), hready.below x hx]
  have hmagic : m2.load32 (s.lastAvailableAddress - ModuleDescriptor.size)
      = s.mem.load32 (s.lastAvailableAddress - ModuleDescriptor.size) := by
    rw [ModuleDescriptor.size] at hroom ⊢
    exact Memory.load32_congr fun x _ _ => hm2 x (by omega)
  refine ⟨by omega, by omega, fun x hx => ?_, ?_, rfl, ?_, ?_⟩
  · rw [hdescriptor x (by omega), hm2 x hx]
  · rw [hlast', hmem']
    exact fun i hi => Memory.byte_write_same _ _ _ hi
  · simp only [Loader.newest, Loader.descriptor, sub32_eq hroom (show _ < wordSize by omega), hmagic]
  · refine ⟨?_, hsymtab, hstrtab, fun h1 h2 => ?_⟩
    · rw [Loader.descriptor, hf.pageAlignUp]
      exact hf.base
    · obtain ⟨table, htable⟩ := hp.symbolsAt himg hf h1 h2
      refine ⟨table, fun m' hm' => ?_⟩
      have hbase : (s.descriptor name elf t m2).loadBase
          = alignTo pageSize s.lastAvailableAddress := hf.pageAlignUp
      rw [hbase]
      refine htable m1 m' hready hsame fun x hx1 hx2 => ?_
      rw [hm' x (by omega), hdescriptor x hx2,
        hp.byte_of_stored himg.toWellFormed hstored (.inr hx1)]

end Install

/-! ## §4. The registry. -/

/-- What is so between calls: the descriptors are a chain below the last address. -/
structure Registry (s : Loader) (es : List Entry) : Prop where
  room : ModuleDescriptor.size ≤ s.lastAvailableAddress
  inMemory : s.lastAvailableAddress < wordSize
  chain : Chain s.mem s.newest es
  below : ∀ e ∈ es, e.address + ModuleDescriptor.size ≤ s.lastAvailableAddress
  tables : ∀ e ∈ es, e.descriptor.TablesKept s.mem s.lastAvailableAddress
  nodup : (es.map Entry.name).Nodup

section Registry

variable {s : Loader} {es : List Entry}

/-- The loops start at the newest descriptor. -/
theorem findDescriptor_newest (s : Loader) (name : Text) (fuel : Nat) :
    moduleAlreadyLoaded s.mem s.lastAvailableAddress name fuel
      = findDescriptor s.mem name fuel s.newest := by
  rw [moduleAlreadyLoaded, Loader.newest]
  split
  · rfl
  · next hmagic =>
      cases fuel with
      | zero => rw [findDescriptor, findDescriptor]
      | succ fuel =>
          rw [findDescriptor, findDescriptor, if_pos hmagic, ite_self, if_pos rfl]

theorem namesFrom_newest (s : Loader) (fuel : Nat) :
    s.loadedModuleNames fuel = namesFrom s.mem fuel s.newest := by
  rw [Loader.loadedModuleNames, Loader.newest]
  split
  · rfl
  · next hmagic =>
      cases fuel with
      | zero => rw [namesFrom, namesFrom]
      | succ fuel => rw [namesFrom, namesFrom, if_pos hmagic, ite_self, if_pos rfl]

/-- **A module is entered** at the front. -/
theorem Registry.install (h : Registry s es) {s' : Loader} {name : Text} {elf elf' : ElfParser}
    {length : Nat} {d : ModuleDescriptor} (hinst : s.install name elf = .ok (s', elf', d))
    (himg : elf.Loadable s.mem length) (hbelow : elf.start + length ≤ s.lastAvailableAddress)
    (hfits : plannedEnd s.lastAvailableAddress elf.sections elf' < wordSize)
    (hname : Readable name s.newest) (hnew : name ∉ es.map Entry.name) :
    d.name = name ∧ (∀ x < s.lastAvailableAddress, s'.mem.byte x = s.mem.byte x) ∧
    Registry s' (⟨s'.lastAvailableAddress - ModuleDescriptor.size, d⟩ :: es) := by
  obtain ⟨hlast, hlast', hsame, hbytes, rfl, hprevious, htables⟩ :=
    install_registers hinst himg hbelow hfits h.room
  have hroom := h.room
  have hnewest : s'.newest = s'.lastAvailableAddress - ModuleDescriptor.size := by
    rw [Loader.newest, sub32_eq (by omega) hlast']
    exact if_pos (ModuleDescriptor.hasBytes_words hbytes).1
  refine ⟨rfl, hsame, by omega, hlast', ?_, ?_, ?_, List.nodup_cons.mpr ⟨hnew, h.nodup⟩⟩
  · -- the newest descriptor leads to the one that was the newest
    rw [hnewest]
    refine ⟨?_, by omega, rfl, hbytes, ?_, ?_, ?_⟩
    · rw [ModuleDescriptor.size] at *
      omega
    · rw [hprevious, Loader.newest]
      split
      · exact sub32_lt _ _
      · decide
    · rw [hprevious]
      exact hname
    · rw [hprevious]
      exact h.chain.congr h.below hsame
  · intro e he
    rcases List.mem_cons.mp he with rfl | he
    · simp only
      omega
    · have := h.below e he
      omega
  · -- the tables of the older modules are below all that was written
    intro e he
    rcases List.mem_cons.mp he with rfl | he
    · exact htables
    · exact (h.tables e he).mono (by omega) hsame

/-- The module with the name is found. -/
theorem Registry.find (h : Registry s es) {e : Entry} (he : e ∈ es) :
    es.find? (·.name = e.name) = some e := by
  have hsome : (es.find? (·.name = e.name)).isSome := List.find?_isSome.mpr ⟨e, he, by simp⟩
  obtain ⟨e', he'⟩ := Option.isSome_iff_exists.mp hsome
  have hname : e'.name = e.name := by simpa using List.find?_some he'
  rw [he', List.inj_on_of_nodup_map h.nodup (List.mem_of_find?_eq_some he') he hname]

/-- The words of a descriptor are read back. -/
theorem Registry.words (h : Registry s es) {e : Entry} (he : e ∈ es) :
    s.mem.load32 (add32 e.address 44) = e.descriptor.loadBase ∧
    s.mem.load32 (add32 e.address 56) = e.descriptor.symtabStart ∧
    s.mem.load32 (add32 e.address 60) = e.descriptor.strtabStart := by
  obtain ⟨hlt, hbytes⟩ := h.chain.mem he
  obtain ⟨-, -, hbase, hsymtab, hstrtab⟩ := ModuleDescriptor.hasBytes_words hbytes
  obtain ⟨hbase', hsymtab', hstrtab', -⟩ := h.tables e he
  rw [ModuleDescriptor.size] at hlt
  rw [add32_eq (by omega), add32_eq (by omega), add32_eq (by omega), hbase, hsymtab, hstrtab,
    Nat.mod_eq_of_lt hbase', Nat.mod_eq_of_lt hsymtab', Nat.mod_eq_of_lt hstrtab']
  exact ⟨rfl, rfl, rfl⟩

/-- What a descriptor says about a closure. -/
def Entry.closure (e : Entry) (m : Memory) (name : Text) : Except Halt Nat :=
  findSymbol m e.descriptor.loadBase e.descriptor.symtabStart e.descriptor.strtabStart name

/-- **A call for a module that is registered** looks the closure up in its tables. -/
theorem Registry.loadModule_again (h : Registry s es) {e : Entry} (he : e ∈ es) (elf : ElfParser)
    (closure : Text) {fuel : Nat} (hfuel : es.length < fuel) :
    s.loadModule e.name elf (some closure) fuel
      = (e.closure s.mem closure).map fun symbol => ⟨s, elf, none, symbol⟩ := by
  obtain ⟨hbase, hsymtab, hstrtab⟩ := h.words he
  rw [Loader.loadModule, findDescriptor_newest, findDescriptor_eq h.chain e.name hfuel, h.find he,
    Option.map_some, Except.bind]
  simp only [hbase, hsymtab, hstrtab, Entry.closure]

/-- A call that has returned: the module was registered and its tables were used, or it was
not and has been installed. -/
theorem Registry.loadModule_cases (h : Registry s es) {name : Text} {elf : ElfParser}
    {closureName : Option Text} {fuel : Nat} {r : Loaded}
    (hcall : s.loadModule name elf closureName fuel = .ok r) :
    (∃ e ∈ es, ∃ closure, e.name = name ∧ closureName = some closure ∧ r.loader = s ∧
      e.closure s.mem closure = .ok r.value) ∨
    (name ∉ es.map Entry.name ∧ ∃ d, s.install name elf = .ok (r.loader, r.module, d) ∧
      ∀ closure, closureName = some closure →
        findSymbol r.loader.mem d.loadBase d.symtabStart d.strtabStart closure = .ok r.value) := by
  rw [Loader.loadModule, findDescriptor_newest] at hcall
  obtain ⟨found, hfound, hcall⟩ := bind_eq_ok.mp hcall
  obtain rfl := findDescriptor_of_ok h.chain hfound
  cases hfind : es.find? (·.name = name) with
  -- the module is there already
  | some e =>
      rw [hfind] at hcall
      have he := List.mem_of_find?_eq_some hfind
      have hname : e.name = name := by simpa using List.find?_some hfind
      obtain ⟨hbase, hsymtab, hstrtab⟩ := h.words he
      cases closureName with
      | none => cases hcall
      | some closure =>
          obtain ⟨symbol, hsymbol, rfl⟩ := map_eq_ok.mp hcall
          rw [hbase, hsymtab, hstrtab] at hsymbol
          exact .inl ⟨e, he, closure, hname, rfl, rfl, hsymbol⟩
  -- it is not, and is loaded
  | none =>
      rw [hfind] at hcall
      obtain ⟨⟨s', elf', d⟩, hinst, hcall⟩ := bind_eq_ok.mp hcall
      have hnew : name ∉ es.map Entry.name := by
        rintro hmem
        obtain ⟨e, he, hname⟩ := List.mem_map.mp hmem
        exact List.find?_eq_none.mp hfind e he (decide_eq_true hname)
      cases closureName with
      | none =>
          obtain rfl : _ = r := by simpa only [Except.ok.injEq] using hcall
          exact .inr ⟨hnew, d, hinst, fun _ hno => by cases hno⟩
      | some closure =>
          obtain ⟨symbol, hsymbol, rfl⟩ := map_eq_ok.mp hcall
          refine .inr ⟨hnew, d, hinst, fun closure' hclosure' => ?_⟩
          cases hclosure'
          exact hsymbol

end Registry

/-! ## §5. Runs. -/

/-- A call of `load_module` and what it has returned. -/
structure Call where
  name : Text
  closureName : Option Text
  value : Nat

/-- What a call needs to load an image: it is below the last address, and no address of the
module goes over `2 ^ 32`. -/
structure Loader.CanLoad (s : Loader) (elf : ElfParser) (length : Nat) : Prop where
  image : elf.Loadable s.mem length
  below : elf.start + length ≤ s.lastAvailableAddress
  fits : plannedEnd s.lastAvailableAddress elf.sections (s.loadParts elf).module < wordSize

/-- Calls of `load_module` from `s₀` on, the newest first.  A name that is new can be read
back. -/
inductive Calls (s₀ : Loader) : Loader → List Call → Prop
  | start : Calls s₀ s₀ []
  | call {s : Loader} {cs : List Call} {name : Text} {elf : ElfParser} {length : Nat}
      {closureName : Option Text} {fuel : Nat} {r : Loaded} (h : Calls s₀ s cs)
      (hcall : s.loadModule name elf closureName fuel = .ok r)
      (hload : name ∉ cs.map Call.name → s.CanLoad elf length)
      (hname : name ∉ cs.map Call.name → Readable name s.newest) :
      Calls s₀ r.loader (⟨name, closureName, r.value⟩ :: cs)

/-- The names of the modules that calls have loaded, the newest first. -/
def loadedNames (cs : List Call) : List Text := (cs.map Call.name).dedup

/-- What is so after a run: the modules of the registry are those that were loaded, and
they say about every closure what the call for it has returned. -/
structure Registered (s : Loader) (cs : List Call) (es : List Entry) : Prop where
  registry : Registry s es
  names : es.map Entry.name = loadedNames cs
  values : ∀ c ∈ cs, ∀ closure, c.closureName = some closure →
    ∃ e ∈ es, e.name = c.name ∧ e.closure s.mem closure = .ok c.value

/-- No module is loaded yet. -/
structure Loader.NoneLoaded (s : Loader) : Prop where
  room : ModuleDescriptor.size ≤ s.lastAvailableAddress
  inMemory : s.lastAvailableAddress < wordSize
  noDescriptor : s.newest = 0

/-- A call keeps the registry in step with the calls. -/
theorem Registered.call {s : Loader} {cs : List Call} {es : List Entry} (h : Registered s cs es)
    {name : Text} {elf : ElfParser} {length : Nat} {closureName : Option Text} {fuel : Nat}
    {r : Loaded} (hcall : s.loadModule name elf closureName fuel = .ok r)
    (hload : name ∉ cs.map Call.name → s.CanLoad elf length)
    (hname : name ∉ cs.map Call.name → Readable name s.newest) :
    ∃ es', Registered r.loader (⟨name, closureName, r.value⟩ :: cs) es' := by
  rcases h.registry.loadModule_cases hcall with
    ⟨e, he, closure, rfl, rfl, hsame, hvalue⟩ | ⟨hnew, d, hinst, hvalue⟩
  · -- the module is there
    have hmem : e.name ∈ cs.map Call.name := by
      rw [← List.mem_dedup, ← loadedNames, ← h.names]
      exact List.mem_map_of_mem he
    rw [hsame]
    refine ⟨es, h.registry, ?_, ?_⟩
    · rw [h.names, loadedNames, loadedNames, List.map_cons, List.dedup_cons_of_mem hmem]
    · intro c hc closure' hclosure'
      rcases List.mem_cons.mp hc with rfl | hc
      · cases hclosure'
        exact ⟨e, he, rfl, hvalue⟩
      · exact h.values c hc closure' hclosure'
  · -- it is loaded
    rw [h.names, loadedNames, List.mem_dedup] at hnew
    obtain ⟨himg, hbelow, hfits⟩ := hload hnew
    have hmodule : (s.loadParts elf).module = r.module := (install_cases hinst).choose_spec.1.symm
    rw [hmodule] at hfits
    obtain ⟨hdname, hsame, hregistry⟩ := h.registry.install hinst himg hbelow hfits (hname hnew)
      (by rw [h.names, loadedNames, List.mem_dedup]; exact hnew)
    refine ⟨_, hregistry, ?_, ?_⟩
    · rw [List.map_cons, h.names, loadedNames, loadedNames, List.map_cons,
        List.dedup_cons_of_notMem hnew, Entry.name, hdname]
    · intro c hc closure hclosure
      rcases List.mem_cons.mp hc with rfl | hc
      · exact ⟨_, List.mem_cons_self, hdname, hvalue closure hclosure⟩
      · obtain ⟨e, he, hename, hevalue⟩ := h.values c hc closure hclosure
        refine ⟨e, List.mem_cons_of_mem _ he, hename, ?_⟩
        rw [Entry.closure, (h.registry.tables e he).findSymbol hsame]
        exact hevalue

theorem Calls.registered {s₀ s : Loader} {cs : List Call} (h : Calls s₀ s cs)
    (hstart : s₀.NoneLoaded) : ∃ es, Registered s cs es := by
  induction h with
  | start =>
      exact ⟨[], ⟨hstart.room, hstart.inMemory, hstart.noDescriptor, by simp, by simp, List.nodup_nil⟩,
        rfl, by simp⟩
  | call h hcall hload hname ih =>
      obtain ⟨es, hes⟩ := ih
      exact hes.call hcall hload hname

/-- The names are listed: these are the strings at the addresses that are returned. -/
def Loader.Lists (s : Loader) (names : List Text) (fuel : Nat) : Prop :=
  ∃ addresses, s.loadedModuleNames fuel = .ok addresses ∧
    List.Forall₂ (fun a name => HasBytes s.mem a (Text.terminated name)) addresses names

/-- **The registry of modules**: after a run in which every new name could be read back, the
names of the loaded modules are listed, the newest first and each once, and a call with the
name and the closure name of an earlier one returns what that has returned and changes
nothing. -/
theorem registry_of_modules {s₀ s : Loader} {cs : List Call} (h : Calls s₀ s cs)
    (hstart : s₀.NoneLoaded) {fuel : Nat} (hfuel : (loadedNames cs).length < fuel) :
    s.Lists (loadedNames cs) fuel ∧
    ∀ c ∈ cs, ∀ closure, c.closureName = some closure → ∀ elf,
      s.loadModule c.name elf (some closure) fuel = .ok ⟨s, elf, none, c.value⟩ := by
  obtain ⟨es, hes⟩ := h.registered hstart
  have hlength : es.length < fuel := by
    rwa [← hes.names, List.length_map] at hfuel
  refine ⟨⟨es.map (·.address + 4), ?_, ?_⟩, fun c hc closure hclosure elf => ?_⟩
  · rw [namesFrom_newest, namesFrom_eq hes.registry.chain hlength]
  · rw [← hes.names]
    exact hes.registry.chain.names
  · obtain ⟨e, he, hname, hvalue⟩ := hes.values c hc closure hclosure
    rw [← hname, hes.registry.loadModule_again he elf closure hlength, hvalue]
    rfl

/-! ## §6. Three calls. -/

theorem relocImage_loadable : (relocImage 4).Loadable (relocMemory 2 2) 0x79 where
  toWellFormed := relocImage_wellFormed
  symbolNames sh hsh hstrtab i hi := by
    have hname : ∀ sh ∈ (relocImage 4).sections, sh.name = 0 ∨
        sh = ⟨1, 3, 0, 0, 0x60, 3, 0, 0, 1, 0⟩ := by decide
    rcases hname sh hsh with hzero | rfl
    · -- a section without a name
      obtain ⟨shstrtab, htab, hbytes⟩ := hstrtab
      obtain rfl := Option.some.inj htab
      rw [hzero] at hbytes
      have hfirst := hbytes.byte (i := 0) rfl
      exact absurd hfirst (by decide +kernel)
    · have hsyms : ∀ i < (relocImage 4).symbolCount,
          ((relocImage 4).symbol (relocMemory 2 2) i).name = 0 ∨
          ((relocImage 4).symbol (relocMemory 2 2) i).name = 1 := by decide +kernel
      rcases hsyms i hi with h | h
      · rw [h]
        exact ⟨⟨[], noNul_of_all rfl⟩, cstringEquals_iff.mp (by decide +kernel), by decide⟩
      · rw [h]
        exact ⟨⟨[102], noNul_of_all rfl⟩, cstringEquals_iff.mp (by decide +kernel), by decide⟩

/-- The image can be loaded wherever its file is below the last address. -/
theorem relocImage_canLoad {s : Loader} (hfile : (relocImage 4).SameFile 0x79 (relocMemory 2 2) s.mem)
    (hbelow : 0x1079 ≤ s.lastAvailableAddress)
    (hfits : plannedEnd s.lastAvailableAddress (relocImage 4).sections
      (s.loadParts (relocImage 4)).module < wordSize) : s.CanLoad (relocImage 4) 0x79 :=
  ⟨hfile.loadable relocImage_loadable, hbelow, hfits⟩

/-- `"a"`, `"b"`, and the symbol `"f"` of the image. -/
def nameA : Text := ⟨[97], noNul_a⟩

def nameB : Text := ⟨[98], noNul_of_all rfl⟩

def nameF : Text := ⟨[102], noNul_of_all rfl⟩

/-- A name of 32 bytes. -/
def longName : Text := ⟨List.replicate 32 98, noNul_of_all rfl⟩

def relocLoader : Loader := ⟨relocMemory 2 2, 0, 0x2010⟩

theorem relocLoader_noneLoaded : relocLoader.NoneLoaded :=
  ⟨by decide, by decide, by decide +kernel⟩

theorem relocLoader_canLoad : relocLoader.CanLoad (relocImage 4) 0x79 :=
  relocImage_canLoad (fun _ _ => rfl) (by decide) (by decide +kernel)

/-- The first call, and what the next one needs. -/
theorem relocLoader_loads :
    ∃ r, relocLoader.loadModule nameA (relocImage 4) (some nameF) 3 = .ok r ∧ r.value = 0x300e ∧
      r.loader.CanLoad (relocImage 4) 0x79 := by
  have hcall : (relocLoader.loadModule nameA (relocImage 4) (some nameF) 3).map (fun r : Loaded =>
      (r.value, r.loader.lastAvailableAddress,
        (List.range 0x79).all fun k =>
          r.loader.mem.byte (0x1000 + k) == (relocMemory 2 2).byte (0x1000 + k),
        decide (plannedEnd r.loader.lastAvailableAddress (relocImage 4).sections
          (r.loader.loadParts (relocImage 4)).module < wordSize)))
      = .ok (0x300e, 0x5000, true, true) := by
    decide +kernel
  obtain ⟨r, hr, hfacts⟩ := map_eq_ok.mp hcall
  simp only [Prod.mk.injEq, decide_eq_true_eq, List.all_eq_true, List.mem_range,
    beq_iff_eq] at hfacts
  obtain ⟨hvalue, hlast, hfile, hfits⟩ := hfacts
  exact ⟨r, hr, hvalue, relocImage_canLoad hfile (by rw [hlast]; decide) hfits⟩

theorem registry_of_modules_three_calls :
    ∃ s, Calls relocLoader s [⟨nameA, some nameF, 0x300e⟩, ⟨nameB, some nameF, 0x500e⟩,
        ⟨nameA, some nameF, 0x300e⟩] ∧
      s.Lists [nameB, nameA] 3 ∧
      s.loadModule nameB (relocImage 4) (some nameF) 3 = .ok ⟨s, relocImage 4, none, 0x500e⟩ := by
  have hcalls : ((relocLoader.loadModule nameA (relocImage 4) (some nameF) 3).bind fun r =>
      (r.loader.loadModule nameB (relocImage 4) (some nameF) 3).bind fun r₂ =>
        (r₂.loader.loadModule nameA (relocImage 4) (some nameF) 3).map fun r₃ =>
          (r₂.value, r₃.value)) = .ok (0x500e, 0x300e) := by
    decide +kernel
  obtain ⟨r, hr, hrest⟩ := bind_eq_ok.mp hcalls
  obtain ⟨r₂, hr₂, hrest⟩ := bind_eq_ok.mp hrest
  obtain ⟨r₃, hr₃, hvalues⟩ := map_eq_ok.mp hrest
  obtain ⟨hvalue₂, hvalue₃⟩ := Prod.mk.inj hvalues
  obtain ⟨r', hr', hvalue, hcan⟩ := relocLoader_loads
  obtain rfl : r = r' := by
    rw [hr] at hr'
    exact Except.ok.inj hr'
  have hone : Calls relocLoader r.loader [⟨nameA, some nameF, 0x300e⟩] := by
    rw [← hvalue]
    exact .call .start hr (fun _ => relocLoader_canLoad) fun _ => .inl (by decide)
  have htwo : Calls relocLoader r₂.loader
      [⟨nameB, some nameF, 0x500e⟩, ⟨nameA, some nameF, 0x300e⟩] := by
    rw [← hvalue₂]
    exact .call hone hr₂ (fun _ => hcan) fun _ => .inl (by decide)
  have hthree : Calls relocLoader r₃.loader [⟨nameA, some nameF, 0x300e⟩,
      ⟨nameB, some nameF, 0x500e⟩, ⟨nameA, some nameF, 0x300e⟩] := by
    have hload : nameA ∉ [nameB, nameA] → r₂.loader.CanLoad (relocImage 4) 0x79 := fun hnew =>
      absurd (show nameA ∈ _ by decide) hnew
    have hcall := Calls.call htwo hr₃ hload fun _ => .inl (by decide)
    rwa [hvalue₃] at hcall
  obtain ⟨hlists, hagain⟩ := registry_of_modules hthree relocLoader_noneLoaded
    (show _ < 3 by decide)
  exact ⟨_, hthree, hlists, hagain ⟨nameB, some nameF, 0x500e⟩ (by simp) nameF rfl _⟩

/-- **A name of 32 bytes is lost**: the module is listed under another name, and a second call
loads it again. -/
theorem long_name_is_lost :
    ∃ r r₂ r₃, relocLoader.CanLoad (relocImage 4) 0x79 ∧
      relocLoader.loadModule nameA (relocImage 4) (some nameF) 3 = .ok r ∧
      r.loader.CanLoad (relocImage 4) 0x79 ∧
      r.loader.loadModule longName (relocImage 4) (some nameF) 3 = .ok r₂ ∧
      ¬ r₂.loader.Lists [longName, nameA] 3 ∧
      r₂.loader.loadModule longName (relocImage 4) (some nameF) 3 = .ok r₃ ∧
      r₃.value ≠ r₂.value ∧ r₃.loader.lastAvailableAddress ≠ r₂.loader.lastAvailableAddress := by
  have hcalls : ((relocLoader.loadModule nameA (relocImage 4) (some nameF) 3).bind fun r =>
      (r.loader.loadModule longName (relocImage 4) (some nameF) 3).bind fun r₂ =>
        (r₂.loader.loadModule longName (relocImage 4) (some nameF) 3).bind fun r₃ =>
          (r₂.loader.loadedModuleNames 3).map fun addresses =>
            (addresses, cstringEquals r₂.loader.mem longName 0x6fc4,
              decide (r₃.value ≠ r₂.value),
              decide (r₃.loader.lastAvailableAddress ≠ r₂.loader.lastAvailableAddress)))
      = .ok ([0x6fc4, 0x4fc4], false, true, true) := by
    decide +kernel
  obtain ⟨r, hr, hrest⟩ := bind_eq_ok.mp hcalls
  obtain ⟨r₂, hr₂, hrest⟩ := bind_eq_ok.mp hrest
  obtain ⟨r₃, hr₃, hrest⟩ := bind_eq_ok.mp hrest
  obtain ⟨addresses, haddresses, hfacts⟩ := map_eq_ok.mp hrest
  simp only [Prod.mk.injEq, decide_eq_true_eq] at hfacts
  obtain ⟨rfl, hname, hvalue, hlast⟩ := hfacts
  obtain ⟨r', hr', -, hcan⟩ := relocLoader_loads
  obtain rfl : r = r' := by
    rw [hr] at hr'
    exact Except.ok.inj hr'
  refine ⟨r, r₂, r₃, relocLoader_canLoad, hr, hcan, hr₂, ?_, hr₃, hvalue, hlast⟩
  rintro ⟨as, has, hall⟩
  rw [haddresses] at has
  obtain rfl := Except.ok.inj has
  cases hall with
  | cons hfirst _ =>
      rw [cstringEquals_iff.mpr hfirst] at hname
      cases hname

end Metta.ModuleLoader
