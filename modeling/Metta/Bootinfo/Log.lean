/-
  Metta.Bootinfo.Log — the boot info page is a log.

  The records that were appended with success lie in the page from its first
  record to `free`, each as it was written (`Stored`).  The walkers trust the
  stored sizes, and so they go from record to record.

    • `At` — a record in memory, `append_at` — it is there once appended,
    • `Holds`, `append_holds` — the page holds a log,
    • `boot_page_is_log` — what every reader answers after any calls.
-/
import Metta.Machine.Bytes
import Metta.Bootinfo.Def

namespace Metta.Bootinfo

open Metta.Machine Memory

/-! ## §1. A record in memory. -/

/-- The string is at `a`, with its NUL. -/
def HasString (m : Memory) (a : Nat) (str : CString) : Prop :=
  ∀ i (h : i < (str.bytes ++ [0]).length), m.byte (a + i) = (str.bytes ++ [0])[i]

/-- The fields of the record are at `a`. -/
def Fields (m : Memory) (a : Nat) : Record → Prop
  | .module number modStart modEnd str =>
      m.load32 (a + 4) = number.toNat ∧ m.load64 (a + 8) = modStart.toNat ∧
        m.load64 (a + 16) = modEnd.toNat ∧ m.load32 (a + 24) = a + 28 ∧ HasString m (a + 28) str
  | .mmap start length type =>
      m.load64 (a + 4) = start.toNat ∧ m.load64 (a + 12) = length.toNat ∧
        m.load32 (a + 20) = type.toNat
  | .vmap vstart pstart size =>
      m.load32 (a + 4) = vstart.toNat ∧ m.load32 (a + 8) = pstart.toNat ∧
        m.load32 (a + 12) = (size >>> 12).toNat ∧ m.load32 (a + 16) = 12 ∧ m.load32 (a + 20) = 0
  | .cmdline str => m.load32 (a + 4) = a + 8 ∧ HasString m (a + 8) str

/-- The record is at `a`. -/
def At (m : Memory) (a : Nat) (r : Record) : Prop :=
  m.load16 a = r.tag ∧ m.load16 (a + 2) = r.size ∧ Fields m a r

theorem CString.length_lt (str : CString) : str.bytes.length + 29 + pageSize < wordSize := by
  have := str.fits
  simp only [pageSize, wordSize] at *
  omega

theorem Record.module_size (number modStart modEnd : BitVec 32) (str : CString) :
    (Record.module number modStart modEnd str).size = 28 + (str.bytes ++ [0]).length := by
  have := str.length_lt
  simp only [pageSize, wordSize] at this
  have hadd : add32 28 str.bytes.length = 28 + str.bytes.length :=
    add32_eq (by simp only [wordSize]; omega)
  rw [Record.size, hadd, add32_eq (by simp only [wordSize]; omega)]
  simp [Nat.add_assoc]

theorem Record.cmdline_size (str : CString) :
    (Record.cmdline str).size = 8 + (str.bytes ++ [0]).length := by
  have := str.length_lt
  simp only [pageSize, wordSize] at this
  have hadd : add32 8 str.bytes.length = 8 + str.bytes.length :=
    add32_eq (by simp only [wordSize]; omega)
  rw [Record.size, hadd, add32_eq (by simp only [wordSize]; omega)]
  simp [Nat.add_assoc]

theorem Record.size_bounds (r : Record) : 9 ≤ r.size ∧ r.size + pageSize < wordSize := by
  cases r with
  | module number modStart modEnd str =>
      have := str.length_lt
      rw [Record.module_size]
      simp only [List.length_append, List.length_singleton]
      omega
  | mmap start length type => exact (by decide : 9 ≤ 24 ∧ 24 + pageSize < wordSize)
  | vmap vstart pstart size => exact (by decide : 9 ≤ 24 ∧ 24 + pageSize < wordSize)
  | cmdline str =>
      have := str.length_lt
      rw [Record.cmdline_size]
      simp only [List.length_append, List.length_singleton]
      omega

theorem HasString.congr {m m' : Memory} {a : Nat} {str : CString} (h : HasString m a str)
    (hsame : ∀ x, a ≤ x → x < a + (str.bytes ++ [0]).length → m'.byte x = m.byte x) :
    HasString m' a str := by
  intro i hi
  rw [hsame (a + i) (by omega) (by omega), h i hi]

/-- A record reads its own bytes only. -/
theorem At.congr {m m' : Memory} {a : Nat} {r : Record} (h : At m a r)
    (hsame : ∀ x, a ≤ x → x < a + r.size → m'.byte x = m.byte x) : At m' a r := by
  have hmin := r.size_bounds.1
  have h16 : ∀ i, i + 2 ≤ r.size → m'.load16 (a + i) = m.load16 (a + i) := fun i hi =>
    load16_congr fun x h1 h2 => hsame x (by omega) (by omega)
  have h32 : ∀ i, i + 4 ≤ r.size → m'.load32 (a + i) = m.load32 (a + i) := fun i hi =>
    load32_congr fun x h1 h2 => hsame x (by omega) (by omega)
  have h64 : ∀ i, i + 8 ≤ r.size → m'.load64 (a + i) = m.load64 (a + i) := fun i hi =>
    load64_congr fun x h1 h2 => hsame x (by omega) (by omega)
  obtain ⟨htag, hsize, hfields⟩ := h
  refine ⟨(h16 0 (by omega)).trans htag, (h16 2 (by omega)).trans hsize, ?_⟩
  cases r with
  | module number modStart modEnd str =>
      have hlen := Record.module_size number modStart modEnd str
      obtain ⟨h1, h2, h3, h4, h5⟩ := hfields
      rw [hlen] at h32 h64 hsame
      exact ⟨(h32 4 (by omega)).trans h1, (h64 8 (by omega)).trans h2,
        (h64 16 (by omega)).trans h3, (h32 24 (by omega)).trans h4,
        h5.congr fun x hx hx' => hsame x (by omega) (by omega)⟩
  | mmap start length type =>
      have hlen : (Record.mmap start length type).size = 24 := rfl
      obtain ⟨h1, h2, h3⟩ := hfields
      rw [hlen] at h32 h64
      exact ⟨(h64 4 (by omega)).trans h1, (h64 12 (by omega)).trans h2,
        (h32 20 (by omega)).trans h3⟩
  | vmap vstart pstart size =>
      have hlen : (Record.vmap vstart pstart size).size = 24 := rfl
      obtain ⟨h1, h2, h3, h4, h5⟩ := hfields
      rw [hlen] at h32
      exact ⟨(h32 4 (by omega)).trans h1, (h32 8 (by omega)).trans h2,
        (h32 12 (by omega)).trans h3, (h32 16 (by omega)).trans h4,
        (h32 20 (by omega)).trans h5⟩
  | cmdline str =>
      have hlen := Record.cmdline_size str
      obtain ⟨h1, h2⟩ := hfields
      rw [hlen] at h32 hsame
      exact ⟨(h32 4 (by omega)).trans h1, h2.congr fun x hx hx' => hsame x (by omega) (by omega)⟩

/-! ## §2. Writing a record. -/

theorem hasString_copyString (m : Memory) (a : Nat) (str : CString) :
    HasString (copyString m a str) a str := fun _ hi => byte_write_same m a _ hi

/-- The fields are there once they are put. -/
theorem putFields_fields (m : Memory) {a : Nat} (ha : a + 28 < wordSize) (r : Record) :
    Fields (Page.putFields m a r) a r := by
  have hbv : ∀ {n : Nat} (x : BitVec n), x.toNat < 2 ^ n := fun x => x.isLt
  cases r with
  | module number modStart modEnd str =>
      have hstart : modStart.toNat < 2 ^ 64 := lt_trans (hbv modStart) (by decide)
      have hend : modEnd.toNat < 2 ^ 64 := lt_trans (hbv modEnd) (by decide)
      -- each field is read past the stores that come after its own
      refine ⟨?_, ?_, ?_, ?_, hasString_copyString _ _ _⟩
      · rw [Page.putFields, copyString, load32_write_ne _ (by omega),
          load32_store32_ne _ _ _ _ (by omega), load32_store64_ne _ _ _ _ (by omega),
          load32_store64_ne _ _ _ _ (by omega)]
        exact load32_store32_same _ _ _ (hbv number)
      · rw [Page.putFields, copyString, load64_write_ne _ (by omega),
          load64_store32_ne _ _ _ _ (by omega), load64_store64_ne _ _ _ _ (by omega)]
        exact load64_store64_same _ _ _ hstart
      · rw [Page.putFields, copyString, load64_write_ne _ (by omega),
          load64_store32_ne _ _ _ _ (by omega)]
        exact load64_store64_same _ _ _ hend
      · rw [Page.putFields, copyString, load32_write_ne _ (by omega)]
        exact load32_store32_same _ _ _ ha
  -- a map entry ends with its type, which is stored last
  | mmap start length type =>
      refine ⟨?_, ?_, load32_store32_same _ _ _ (hbv type)⟩
      · rw [Page.putFields, load64_store32_ne _ _ _ _ (by omega),
          load64_store64_ne _ _ _ _ (by omega)]
        exact load64_store64_same _ _ _ (hbv start)
      · rw [Page.putFields, load64_store32_ne _ _ _ _ (by omega)]
        exact load64_store64_same _ _ _ (hbv length)
  | vmap vstart pstart size =>
      refine ⟨?_, ?_, ?_, ?_, load32_store32_same _ _ _ (by decide)⟩
      · rw [Page.putFields, load32_store32_ne _ _ _ _ (by omega),
          load32_store32_ne _ _ _ _ (by omega), load32_store32_ne _ _ _ _ (by omega),
          load32_store32_ne _ _ _ _ (by omega)]
        exact load32_store32_same _ _ _ (hbv vstart)
      · rw [Page.putFields, load32_store32_ne _ _ _ _ (by omega),
          load32_store32_ne _ _ _ _ (by omega), load32_store32_ne _ _ _ _ (by omega)]
        exact load32_store32_same _ _ _ (hbv pstart)
      · rw [Page.putFields, load32_store32_ne _ _ _ _ (by omega),
          load32_store32_ne _ _ _ _ (by omega)]
        exact load32_store32_same _ _ _ (hbv _)
      · rw [Page.putFields, load32_store32_ne _ _ _ _ (by omega)]
        exact load32_store32_same _ _ _ (by decide)
  | cmdline str =>
      refine ⟨?_, hasString_copyString _ _ _⟩
      rw [Page.putFields, copyString, load32_write_ne _ (by omega)]
      exact load32_store32_same _ _ _ (by omega)

/-- The fields are put behind the tag and the size, and no further than the record. -/
theorem byte_putFields_ne (m : Memory) {a x : Nat} (r : Record)
    (h : x < a + 4 ∨ a + r.size ≤ x) : (Page.putFields m a r).byte x = m.byte x := by
  have hmin := r.size_bounds.1
  cases r with
  | module number modStart modEnd str =>
      rw [Record.module_size] at h
      rw [Page.putFields, copyString, byte_write_ne _ (by omega),
        byte_store32_ne _ _ _ _ (by omega), byte_store64_ne _ _ _ _ (by omega),
        byte_store64_ne _ _ _ _ (by omega), byte_store32_ne _ _ _ _ (by omega)]
  | mmap start length type =>
      rw [show (Record.mmap start length type).size = 24 from rfl] at h
      rw [Page.putFields, byte_store32_ne _ _ _ _ (by omega), byte_store64_ne _ _ _ _ (by omega),
        byte_store64_ne _ _ _ _ (by omega)]
  | vmap vstart pstart size =>
      rw [show (Record.vmap vstart pstart size).size = 24 from rfl] at h
      rw [Page.putFields, byte_store32_ne _ _ _ _ (by omega), byte_store32_ne _ _ _ _ (by omega),
        byte_store32_ne _ _ _ _ (by omega), byte_store32_ne _ _ _ _ (by omega),
        byte_store32_ne _ _ _ _ (by omega)]
  | cmdline str =>
      rw [Record.cmdline_size] at h
      rw [Page.putFields, copyString, byte_write_ne _ (by omega),
        byte_store32_ne _ _ _ _ (by omega)]

/-! ## §3. The page holds a log. -/

/-- The page holds the records `log`, up to `free`. -/
structure Holds (b : Page) (log : List Record) : Prop where
  laid : Laid Record.size (At b.mem) firstRecord log b.free
  inside : b.free ≤ address + pageSize

theorem create_holds (m : Memory) : Holds (create m) [] :=
  ⟨rfl, (by decide : firstRecord ≤ address + pageSize)⟩

variable {b : Page} {log : List Record} {r : Record}

/-- What lies behind the records does not matter. -/
theorem Holds.of_mem (h : Holds b log) {m : Memory} (hsame : ∀ x < b.free, m.byte x = b.mem.byte x) :
    Holds { b with mem := m } log :=
  ⟨h.laid.congr fun _ _ _ hend hr => hr.congr fun x _ hx => hsame x (by omega), h.inside⟩

theorem Holds.free_ge (h : Holds b log) : firstRecord ≤ b.free := h.laid.le

theorem Holds.size_eq (h : Holds b log) : b.size = b.free - address := by
  have hge := h.free_ge
  have hin := h.inside
  rw [Page.size, sub32_eq]
  · simp only [firstRecord] at hge
    omega
  · simp only [address, pageSize, wordSize] at *
    omega

theorem Holds.size_le (h : Holds b log) : b.size ≤ pageSize := by
  have := h.inside
  rw [h.size_eq]
  omega

/-- A record is appended exactly when the page has room for it. -/
theorem Holds.willOverflow_iff (h : Holds b log) :
    b.willOverflow r.size = false ↔ b.free + r.size ≤ address + pageSize := by
  have hge := h.free_ge
  have hin := h.inside
  have hsize := r.size_bounds.2
  have hsub := h.size_eq
  have hadd : add32 b.size r.size = b.free - address + r.size := by
    rw [hsub]
    refine add32_eq ?_
    simp only [firstRecord, address, pageSize, wordSize] at *
    omega
  rw [Page.willOverflow, hadd]
  simp only [firstRecord, decide_eq_false_iff_not, not_lt] at *
  omega

theorem noteModule_mem (b : Page) (r : Record) :
    (b.noteModule r).mem = b.mem ∧ (b.noteModule r).free = b.free := by
  cases r with
  | module number modStart modEnd str =>
      rw [Page.noteModule]
      split <;> exact ⟨rfl, rfl⟩
  | mmap start length type => exact ⟨rfl, rfl⟩
  | vmap vstart pstart size => exact ⟨rfl, rfl⟩
  | cmdline str => exact ⟨rfl, rfl⟩

/-- A call that fails changes nothing. -/
theorem append_false (h : (b.append r).1 = false) : (b.append r).2 = b := by
  rw [Page.append] at h ⊢
  split
  · rfl
  · rename_i hroom
    rw [if_neg hroom] at h
    cases h

/-- **A call that succeeds** adds its record to the log. -/
theorem append_holds (h : Holds b log) (hok : (b.append r).1 = true) :
    Holds (b.append r).2 (log ++ [r]) := by
  obtain ⟨hmem, hfree⟩ := noteModule_mem b r
  have hroom : b.willOverflow r.size = false := by
    by_contra hfull
    rw [Page.append, if_pos (by simpa using hfull)] at hok
    cases hok
  have hlen := h.willOverflow_iff.mp hroom
  have hsize : r.size % 2 ^ 16 = r.size := by
    have := h.free_ge
    refine Nat.mod_eq_of_lt ?_
    simp only [firstRecord, address, pageSize] at *
    omega
  obtain ⟨m, hm⟩ : ∃ m, m = (b.mem.store16 b.free r.tag).store16 (b.free + 2) r.size := ⟨_, rfl⟩
  have happend : (b.append r).2
      = { b.noteModule r with mem := Page.putFields m b.free r, free := b.free + r.size } := by
    rw [Page.append, if_neg (by simp [hroom])]
    simp only [hmem, hfree, hsize, hm]
  have hbelow : ∀ x < b.free, (Page.putFields m b.free r).byte x = b.mem.byte x := fun x hx => by
    rw [byte_putFields_ne _ _ (by omega), hm, byte_store16_ne _ _ _ _ (by omega),
      byte_store16_ne _ _ _ _ (by omega)]
  have hat : At (Page.putFields m b.free r) b.free r := by
    refine ⟨?_, ?_, putFields_fields m ?_ r⟩
    · rw [load16_congr fun x h1 h2 => byte_putFields_ne m r (by omega), hm,
        load16_store16_ne _ _ _ _ (by omega)]
      refine load16_store16_same _ _ _ ?_
      cases r <;> simp [Record.tag]
    · rw [load16_congr fun x h1 h2 => byte_putFields_ne m r (by omega), hm]
      refine load16_store16_same _ _ _ ?_
      rw [← hsize]
      exact Nat.mod_lt _ (by decide)
    · simp only [address, pageSize, wordSize] at *
      omega
  rw [happend]
  refine ⟨Laid.snoc ?_ hat, hlen⟩
  exact h.laid.congr fun a r' _ ha hr' => hr'.congr fun x _ hx => hbelow x (by omega)

/-- What a call can do. -/
theorem append_cases (h : Holds b log) (r : Record) :
    b.append r = (false, b) ∨ ∃ b', b.append r = (true, b') ∧ Holds b' (log ++ [r]) := by
  by_cases hok : (b.append r).1 = true
  · refine .inr ⟨(b.append r).2, ?_, append_holds h hok⟩
    rw [← hok, Prod.mk.eta]
  · have hno := Bool.eq_false_iff.mpr hok
    refine .inl ?_
    calc b.append r = ((b.append r).1, (b.append r).2) := Prod.mk.eta.symm
      _ = (false, b) := by rw [hno, append_false hno]

/-! ## §4. Any calls. -/

/-- The calls `rs`, one after the other: the page they leave, and the records of the
calls that answered true. -/
def appendAll (b : Page) : List Record → Page × List Record
  | [] => (b, [])
  | r :: rs =>
      let rest := appendAll (b.append r).2 rs
      (rest.1, if (b.append r).1 then r :: rest.2 else rest.2)

theorem appendAll_holds (h : Holds b log) (rs : List Record) :
    Holds (appendAll b rs).1 (log ++ (appendAll b rs).2) := by
  induction rs generalizing b log with
  | nil =>
      rw [appendAll, List.append_nil]
      exact h
  | cons r rs ih =>
      rw [appendAll]
      rcases append_cases h r with hr | ⟨b', hr, h'⟩
      · rw [hr]
        exact ih h
      · have hrest := ih h'
        rw [List.append_assoc, List.singleton_append] at hrest
        rw [hr]
        exact hrest

/-- Every record has nine bytes or more, so a page holds few of them. -/
theorem Holds.length_lt (h : Holds b log) : log.length < pageSize := by
  have hsum : 9 * log.length ≤ (log.map Record.size).sum := by
    clear h
    induction log with
    | nil => simp
    | cons r rs ih =>
        have := r.size_bounds.1
        simp only [List.length_cons, List.map_cons, List.sum_cons]
        omega
  have hend := h.laid.end_eq
  have hin := h.inside
  simp only [firstRecord, address, pageSize] at *
  omega

/-! ## §5. What the readers answer. -/

/-- The entry that a memory map record makes. -/
def Record.mmapEntry : Record → Option Page.MmapEntry
  | .mmap start length type => some ⟨start.toNat, length.toNat, type.toNat⟩
  | _ => none

/-- The mapping that a virtual mapping record makes. -/
def Record.mapping : Record → Option Page.Mapping
  | .vmap vstart pstart size => some ⟨vstart.toNat, pstart.toNat, (size >>> 12).toNat, 12, 0⟩
  | _ => none

/-- The addresses and the name of a module record with the number. -/
def Record.moduleNumbered (n : BitVec 32) : Record → Option (Nat × Nat × CString)
  | .module number modStart modEnd str =>
      if number = n then some (modStart.toNat, modEnd.toNat, str) else none
  | _ => none

/-- The string of a command line record. -/
def Record.commandLine : Record → Option CString
  | .cmdline str => some str
  | _ => none

theorem sizeAt_of_at (b : Page) (a : Nat) (r : Record) (h : At b.mem a r) : b.sizeAt a = r.size :=
  h.2.1

theorem Record.size_pos (r : Record) : 0 < r.size := lt_of_lt_of_le (by decide) r.size_bounds.1

theorem Holds.recordsWith (h : Holds b log) (tag : Nat) {fuel : Nat} (hfuel : pageSize ≤ fuel) :
    ∃ as, b.recordsWith tag fuel = some as ∧
      List.Forall₂ (At b.mem) as (log.filter fun r => r.tag == tag) := by
  have hlen : log.length < fuel := lt_of_lt_of_le h.length_lt hfuel
  have htag : ∀ a r, At b.mem a r → (b.tagAt a == tag) = (r.tag == tag) := fun a r ha => by
    rw [Page.tagAt, ha.1]
  obtain ⟨it, as, hit, has, hat⟩ :=
    gather_spec (sizeAt_of_at b) Record.size_pos htag h.laid hlen hlen
  refine ⟨as, ?_, hat⟩
  rw [Page.recordsWith, hit, Option.bind_some, has]

theorem Holds.mmapEntries (h : Holds b log) {fuel : Nat} (hfuel : pageSize ≤ fuel) :
    b.mmapEntries fuel = some (log.filterMap Record.mmapEntry) := by
  obtain ⟨as, has, hat⟩ := h.recordsWith 2 hfuel
  rw [Page.mmapEntries, has, Option.map_some, map_eq_filterMap ?_ ?_ hat]
  · intro a r ha hp
    cases r with
    | mmap start length type =>
        obtain ⟨-, -, h1, h2, h3⟩ := ha
        rw [Page.mmapEntryAt, h1, h2, h3, Record.mmapEntry]
    | _ => simp [Record.tag] at hp
  · intro r hp
    cases r with
    | mmap start length type => simp [Record.tag] at hp
    | _ => rfl

theorem Holds.mappings (h : Holds b log) {fuel : Nat} (hfuel : pageSize ≤ fuel) :
    b.mappings fuel = some (log.filterMap Record.mapping) := by
  obtain ⟨as, has, hat⟩ := h.recordsWith 3 hfuel
  rw [Page.mappings, has, Option.map_some, map_eq_filterMap ?_ ?_ hat]
  · intro a r ha hp
    cases r with
    | vmap vstart pstart size =>
        obtain ⟨-, -, h1, h2, h3, h4, h5⟩ := ha
        rw [Page.mappingAt, h1, h2, h3, h4, h5, Record.mapping]
    | _ => simp [Record.tag] at hp
  · intro r hp
    cases r with
    | vmap vstart pstart size => simp [Record.tag] at hp
    | _ => rfl

/-- `get_module` finds the first module that was appended with the number. -/
theorem Holds.getModule (h : Holds b log) (n : BitVec 32) {fuel : Nat} (hfuel : pageSize ≤ fuel) :
    (log.findSome? (Record.moduleNumbered n) = none ∧ b.getModule n fuel = some none) ∨
    ∃ s e str p, log.findSome? (Record.moduleNumbered n) = some (s, e, str) ∧
      b.getModule n fuel = some (some (s, e, p)) ∧ HasString b.mem p str := by
  have hlen : log.length < fuel := lt_of_lt_of_le h.length_lt hfuel
  have hhit : ∀ a r, At b.mem a r → (b.tagAt a == 1 && b.mem.load32 (a + 4) == n.toNat)
      = (Record.moduleNumbered n r).isSome := by
    intro a r ha
    rw [Page.tagAt, ha.1]
    cases r with
    | module number modStart modEnd str =>
        rw [ha.2.2.1, Record.moduleNumbered]
        by_cases hn : number = n
        · simp [hn, Record.tag]
        · have hne : number.toNat ≠ n.toNat := fun heq => hn (BitVec.eq_of_toNat_eq heq)
          simp [hn, hne]
    | _ => rfl
  rcases scan_findSome (sizeAt_of_at b) Record.size_pos hhit h.laid hlen with
    ⟨h1, h2⟩ | ⟨a, r, h1, h2, h3, h4⟩
  · exact .inl ⟨h2, by rw [Page.getModule, h1]; rfl⟩
  · cases r with
    | module number modStart modEnd str =>
        have hn : number = n := by
          by_contra hn
          simp [Record.moduleNumbered, hn] at h4
        obtain ⟨-, -, -, hs, he, hp, hstr⟩ := h2
        have hs' : modStart.toNat % wordSize = modStart.toNat := Nat.mod_eq_of_lt modStart.isLt
        have he' : modEnd.toNat % wordSize = modEnd.toNat := Nat.mod_eq_of_lt modEnd.isLt
        refine .inr ⟨modStart.toNat, modEnd.toNat, str, a + 28, ?_, ?_, hstr⟩
        · rw [h3, Record.moduleNumbered, if_pos hn]
        · rw [Page.getModule, h1, Option.map_some, Option.map_some, hs, he, hp, hs', he']
    | _ => cases h4

/-- `get_cmdline` finds the first command line that was appended. -/
theorem Holds.getCmdline (h : Holds b log) {fuel : Nat} (hfuel : pageSize ≤ fuel) :
    (log.findSome? Record.commandLine = none ∧ b.getCmdline fuel = some none) ∨
    ∃ str p, log.findSome? Record.commandLine = some str ∧
      b.getCmdline fuel = some (some p) ∧ HasString b.mem p str := by
  have hlen : log.length < fuel := lt_of_lt_of_le h.length_lt hfuel
  have hhit : ∀ a r, At b.mem a r → (b.tagAt a == 4) = (Record.commandLine r).isSome := by
    intro a r ha
    rw [Page.tagAt, ha.1]
    cases r <;> rfl
  rcases scan_findSome (sizeAt_of_at b) Record.size_pos hhit h.laid hlen with
    ⟨h1, h2⟩ | ⟨a, r, h1, h2, h3, h4⟩
  · exact .inl ⟨h2, by rw [Page.getCmdline, h1]; rfl⟩
  · cases r with
    | cmdline str =>
        obtain ⟨-, -, hp, hstr⟩ := h2
        refine .inr ⟨str, a + 8, h3, ?_, hstr⟩
        rw [Page.getCmdline, h1, Option.map_some, Option.map_some, hp]
    | _ => cases h4

/-- **The boot info page is a log** of the calls that answered true, whatever calls are
made on a fresh page: the iterators go through the memory map and the mappings in order
and come to their end, a module is found by its number and the command line by its tag,
the first one if there are several; the page does not outgrow its size, and a call that
answers false changes nothing. -/
theorem boot_page_is_log (m : Memory) (calls : List Record) {fuel : Nat}
    (hfuel : pageSize ≤ fuel) :
    let b := (appendAll (create m) calls).1
    let log := (appendAll (create m) calls).2
    b.size ≤ pageSize ∧ b.free ≤ address + pageSize ∧
    b.mmapEntries fuel = some (log.filterMap Record.mmapEntry) ∧
    b.mappings fuel = some (log.filterMap Record.mapping) ∧
    (∀ n, (log.findSome? (Record.moduleNumbered n) = none ∧ b.getModule n fuel = some none) ∨
      ∃ s e str p, log.findSome? (Record.moduleNumbered n) = some (s, e, str) ∧
        b.getModule n fuel = some (some (s, e, p)) ∧ HasString b.mem p str) ∧
    ((log.findSome? Record.commandLine = none ∧ b.getCmdline fuel = some none) ∨
      ∃ str p, log.findSome? Record.commandLine = some str ∧
        b.getCmdline fuel = some (some p) ∧ HasString b.mem p str) ∧
    ∀ r, (b.append r).1 = false → (b.append r).2 = b := by
  intro b log
  have h : Holds b log := appendAll_holds (create_holds m) calls
  exact ⟨h.size_le, h.inside, h.mmapEntries hfuel, h.mappings hfuel,
    fun n => h.getModule n hfuel, h.getCmdline hfuel, fun r hr => append_false hr⟩

/-- Four records of four kinds, and one more memory map entry. -/
def sampleCalls : List Record :=
  [.cmdline ⟨[107], noNul_of_all rfl, by decide⟩, .mmap 0x100000 0x400000 1, .vmap 0x8000 0x8000 0x1000,
    .module 3 0x200000 0x201000 ⟨[109, 111, 100], noNul_of_all rfl, by decide⟩, .mmap 0x9fc00 0x400 2]

theorem boot_page_is_log_sample :
    pageSize ≤ 4096 ∧
    (appendAll (create ⟨fun _ => 0, []⟩) sampleCalls).1.mmapEntries 4096
      = some [⟨0x100000, 0x400000, 1⟩, ⟨0x9fc00, 0x400, 2⟩] ∧
    (appendAll (create ⟨fun _ => 0, []⟩) sampleCalls).1.mappings 4096
      = some [⟨0x8000, 0x8000, 1, 12, 0⟩] := by
  obtain ⟨-, -, hmmap, hvmap, -⟩ := boot_page_is_log ⟨fun _ => 0, []⟩ sampleCalls le_rfl
  refine ⟨le_rfl, hmmap.trans (congrArg some ?_), hvmap.trans (congrArg some ?_)⟩
  · decide +kernel
  · decide +kernel

end Metta.Bootinfo
