/-
  Metta.Bootinfo.MemoryMap — how the memory map of the boot loader gets into
  the page: `mmap_t` of kernel/platform/pc99/multiboot.cpp and the loop in
  `mbi_probe` of launcher/pc99/loader-multiboot.cpp.

  The loop goes from entry to entry by sizes that stand in foreign memory, in
  pointers that wrap, and every turn writes a record to the page, which is in
  the same memory.  So a turn depends on the page too.

    • `Mmap`, `appendEntry`, `walk` — the map area and the loop,
    • `ends_iff_acyclic` — the loop ends exactly when no entry leads back to
      itself once the page is full,
    • `Spelled`, `Untouched` — an area of well-formed entries, and where the records
      must not be written,
    • `imported_iff` — when the records of the page are the entries of the area,
    • `untouched_of_apart` — areas that do not touch the page,
    • `not_imported_still` — an area on which the loop stands still, and one of
      which it takes one entry of two.
-/
import Metta.Machine.Chase
import Metta.Bootinfo.Log

namespace Metta.Bootinfo

open Metta.Machine Memory

/-! ## §1. The loop. -/

/-- `multiboot_t::mmap_t` of an area that is not empty and lies in the address space.  The
structure itself is not in the page. -/
structure Mmap where
  length : Nat
  addr : Nat
  nonempty : 0 < length
  inside : addr + length ≤ wordSize

namespace Mmap

/-- `first_entry`. -/
def firstEntry (mm : Mmap) : Nat := mm.addr

/-- `next_entry`; a null pointer is 0. -/
def nextEntry (mm : Mmap) (m : Memory) (prev : Nat) : Nat :=
  if prev = 0 then 0
  else
    let end_ := add32 mm.addr mm.length
    let next := add32 (add32 prev (m.load32 prev)) 4
    if next < end_ then next else 0

end Mmap

namespace Page

/-- What is read when the records are in `m`: the header of the page is in the same memory, and
addresses go around. -/
def image (b : Page) (m : Memory) : Memory :=
  let header := (((m.store32 address 0xbeefdea1).store32 (address + 4) b.free).store32
    (address + 8) b.firstModuleAddress).store32 (address + 12) b.lastAvailableModuleAddress
  { header with byte := fun x => header.byte (x % wordSize) }

/-- The record that `append_mmap` makes of the entry.  A field is read when those before it have
been written. -/
@[irreducible] def entryRecord (b : Page) (entry : Nat) : Record :=
  let m := (b.mem.store16 b.free 2).store16 (b.free + 2) 24
  let start := (b.image m).load64 (entry + 4)
  let m := m.store64 (b.free + 4) start
  let length := (b.image m).load64 (entry + 12)
  let m := m.store64 (b.free + 12) length
  .mmap (BitVec.ofNat 64 start) (BitVec.ofNat 64 length)
    (BitVec.ofNat 32 ((b.image m).load32 (entry + 20)))

/-- `append_mmap` of an entry that is not null. -/
@[irreducible] def appendEntry (b : Page) (entry : Nat) : Bool × Page := b.append (b.entryRecord entry)

end Page

namespace Mmap

/-- A turn of the loop in `mbi_probe`, with `mmi` and the page. -/
def turn (mm : Mmap) : Nat × Page → Page ⊕ (Nat × Page)
  | (mmi, b) =>
      if mmi = 0 then .inl b
      else
        let b' := (b.appendEntry mmi).2
        .inr (mm.nextEntry (b'.image b'.mem) mmi, b')

/-- The loop in `mbi_probe`, on a new page. -/
def walk (mm : Mmap) (m : Memory) (fuel : Nat) : Option Page :=
  Chase.run mm.turn fuel (mm.firstEntry, create m)

end Mmap

variable {mm : Mmap} {m : Memory} {b : Page} {log : List Record} {a : Nat}

/-! ## §2. What a turn does. -/

theorem Mmap.nextEntry_lt (mm : Mmap) (m : Memory) (prev : Nat) :
    mm.nextEntry m prev < wordSize := by
  unfold nextEntry
  split
  · decide
  · dsimp only
    split
    · exact add32_lt _ _
    · decide

theorem Mmap.turn_null (mm : Mmap) (b : Page) : mm.turn (0, b) = .inl b := rfl

/-- From an entry the loop goes on to the next one, with its record on the page. -/
theorem Mmap.link_iff {x : Nat × Page} : Chase.Link mm.turn (a, b) x ↔
    a ≠ 0 ∧ x.1 = mm.nextEntry ((b.appendEntry a).2.image (b.appendEntry a).2.mem) a ∧
      x.2 = (b.appendEntry a).2 := by
  obtain ⟨a', b'⟩ := x
  unfold Chase.Link turn
  by_cases ha : a = 0
  · simp [ha]
  · simp [ha, eq_comm]

theorem entryRecord_size (b : Page) (a : Nat) : (b.entryRecord a).size = 24 := by
  unfold Page.entryRecord Record.size
  rfl

/-- A page with no room for a record stays as it is. -/
theorem append_of_full {r : Record} (h : b.willOverflow r.size = true) : b.append r = (false, b) := by
  unfold Page.append
  rw [if_pos h]

/-- A page with room for a record takes it. -/
theorem append_of_room {r : Record} (h : b.willOverflow r.size = false) :
    (b.append r).1 = true ∧ (b.append r).2.free = b.free + r.size := by
  have hno : ¬ b.willOverflow r.size = true := by
    rw [h]
    decide
  rw [Page.append, if_neg hno]
  dsimp only
  rw [(noteModule_mem b r).2]
  exact ⟨rfl, rfl⟩

theorem appendEntry_of_full (hfull : b.willOverflow 24 = true) (a : Nat) :
    b.appendEntry a = (false, b) := by
  rw [← entryRecord_size b a] at hfull
  rw [Page.appendEntry, append_of_full hfull]

theorem appendEntry_of_room (h : Holds b log) (hroom : b.willOverflow 24 = false) (a : Nat) :
    Holds (b.appendEntry a).2 (log ++ [b.entryRecord a]) ∧
      (b.appendEntry a).2.free = b.free + 24 := by
  rw [← entryRecord_size b a] at hroom
  obtain ⟨hok, hfree⟩ := append_of_room hroom
  rw [entryRecord_size] at hfree
  rw [Page.appendEntry]
  exact ⟨append_holds h hok, hfree⟩

theorem appendEntry_holds (h : Holds b log) (a : Nat) : ∃ log', Holds (b.appendEntry a).2 log' := by
  cases hroom : b.willOverflow 24 with
  | true =>
      rw [appendEntry_of_full hroom]
      exact ⟨log, h⟩
  | false => exact ⟨_, (appendEntry_of_room h hroom a).1⟩

/-- The page holds its records in every turn. -/
theorem reaches_holds {x y : Nat × Page} (hreach : Chase.Reaches mm.turn x y)
    (h : ∃ log, Holds x.2 log) : ∃ log, Holds y.2 log := by
  induction hreach with
  | refl => exact h
  | @tail y z _ hlink ih =>
      obtain ⟨log, hlog⟩ := ih
      obtain ⟨a, b⟩ := y
      rw [(Mmap.link_iff.mp hlink).2.2]
      exact appendEntry_holds hlog a

/-! ## §3. When the loop ends. -/

/-- With the page as it is, the entry at `a` leads to the one at `a'`. -/
def LeadsTo (mm : Mmap) (b : Page) (a a' : Nat) : Prop :=
  a ≠ 0 ∧ a' = mm.nextEntry (b.image b.mem) a

/-- Once the page is full, no entry that the loop comes to leads back to itself. -/
def Acyclic (mm : Mmap) (m : Memory) : Prop :=
  ∀ a b, Chase.Reaches mm.turn (mm.firstEntry, create m) (a, b) → b.willOverflow 24 = true →
    ¬ Relation.TransGen (LeadsTo mm b) a a

/-- With a full page the loop only follows the entries. -/
theorem link_of_full (hfull : b.willOverflow 24 = true) {x : Nat × Page} :
    Chase.Link mm.turn (a, b) x ↔ LeadsTo mm b a x.1 ∧ x.2 = b := by
  rw [Mmap.link_iff, appendEntry_of_full hfull]
  unfold LeadsTo
  rw [and_assoc]

theorem transGen_of_full (hfull : b.willOverflow 24 = true) {x : Nat × Page} :
    Relation.TransGen (Chase.Link mm.turn) (a, b) x ↔
      Relation.TransGen (LeadsTo mm b) a x.1 ∧ x.2 = b := by
  constructor
  · intro h
    induction h with
    | single hlink =>
        obtain ⟨hnext, hpage⟩ := (link_of_full hfull).mp hlink
        exact ⟨.single hnext, hpage⟩
    | @tail y z _ hlink ih =>
        obtain ⟨hy, rfl⟩ := ih
        obtain ⟨hnext, hpage⟩ := (link_of_full hfull).mp hlink
        exact ⟨hy.tail hnext, hpage⟩
  · intro ⟨h, hpage⟩
    obtain ⟨a', b'⟩ := x
    obtain rfl : b' = b := hpage
    have hlink : ∀ a a', LeadsTo mm b' a a' → Chase.Link mm.turn (a, b') (a', b') :=
      fun a a' hnext => (link_of_full hfull).mpr ⟨hnext, rfl⟩
    exact Relation.TransGen.lift (fun a => (a, b')) hlink _ _ h

/-- With a full page the loop comes to finitely many places. -/
theorem acc_of_full (hac : Acyclic mm m)
    (hreach : Chase.Reaches mm.turn (mm.firstEntry, create m) (a, b))
    (hfull : b.willOverflow 24 = true) :
    Acc (fun y x => Chase.Link mm.turn x y) (a, b) := by
  have hpage : ∀ x, Chase.Reaches mm.turn (a, b) x → x.2 = b := by
    intro x hx
    rcases Relation.reflTransGen_iff_eq_or_transGen.mp hx with rfl | hx
    · rfl
    · exact ((transGen_of_full hfull).mp hx).2
  obtain ⟨words, hwords⟩ : ∃ words : List Nat, ∀ w < wordSize, w ∈ words :=
    ⟨List.range wordSize, fun w hw => List.mem_range.mpr hw⟩
  have hplaces : ∀ x y, Chase.Reaches mm.turn (a, b) x → Chase.Link mm.turn x y →
      x ∈ (a :: words).map fun a => (a, b) := by
    intro x _ hx _
    refine List.mem_map.mpr ⟨x.1, ?_, Prod.ext rfl (hpage x hx).symm⟩
    rcases Relation.reflTransGen_iff_eq_or_transGen.mp hx with rfl | hx
    · exact List.mem_cons_self
    · -- every place but the first one is a result of `next_entry`
      obtain ⟨a', -, -, hnext⟩ := Relation.TransGen.tail'_iff.mp ((transGen_of_full hfull).mp hx).1
      rw [hnext]
      exact List.mem_cons_of_mem _ (hwords _ (mm.nextEntry_lt _ _))
  rw [← Chase.ends_iff_acc, Chase.ends_iff_acyclic _ hplaces]
  intro x hx hcycle
  obtain ⟨a', b'⟩ := x
  obtain rfl : b' = b := hpage _ hx
  exact hac a' b' (hreach.trans hx) hfull ((transGen_of_full hfull).mp hcycle).1

/-- Until the page is full every turn takes some of its room. -/
theorem acc_of_acyclic (hac : Acyclic mm m) (n : Nat) {x : Nat × Page}
    (hreach : Chase.Reaches mm.turn (mm.firstEntry, create m) x)
    (hn : address + pageSize - x.2.free ≤ n) : Acc (fun y x => Chase.Link mm.turn x y) x := by
  induction n using Nat.strong_induction_on generalizing x with
  | h n ih =>
      obtain ⟨a, b⟩ := x
      cases hroom : b.willOverflow 24 with
      | true => exact acc_of_full hac hreach hroom
      | false =>
          obtain ⟨log, hlog⟩ := reaches_holds hreach ⟨[], create_holds m⟩
          obtain ⟨hnext, hfree⟩ := appendEntry_of_room hlog hroom a
          have hinside := hnext.inside
          refine .intro _ fun y hlink => ?_
          have hpage := (Mmap.link_iff.mp hlink).2.2
          refine ih (address + pageSize - y.2.free) ?_ (hreach.tail hlink) (Nat.le_refl _)
          have hle : address + pageSize - b.free ≤ n := hn
          rw [hpage, hfree]
          rw [hfree] at hinside
          omega

/-- **The loop ends exactly when no entry leads back to itself once the page is full.** -/
theorem walk_ends_iff (mm : Mmap) (m : Memory) :
    (∃ fuel b, mm.walk m fuel = some b) ↔ Acyclic mm m := by
  unfold Mmap.walk
  rw [Chase.exists_run_iff]
  constructor
  · intro hends a b hreach hfull hcycle
    exact Chase.acyclic_of_ends hends hreach ((transGen_of_full hfull).mpr ⟨hcycle, rfl⟩)
  · intro hac
    rw [Chase.ends_iff_acc]
    exact acc_of_acyclic hac _ .refl (Nat.le_refl _)

/-! ## §4. Areas of well-formed entries. -/

/-- A well-formed entry: its size field, and what it says of the memory. -/
structure Entry where
  size : Nat
  base : BitVec 64
  length : BitVec 64
  type : BitVec 32
  size_ge : 20 ≤ size

namespace Entry

/-- The bytes of an entry, with the size field, which does not count itself. -/
def span (e : Entry) : Nat := e.size + 4

/-- The record of an entry. -/
def record (e : Entry) : Record := .mmap e.base e.length e.type

/-- What the readers of the page are to see of an entry. -/
def mmapEntry (e : Entry) : Page.MmapEntry := ⟨e.base.toNat, e.length.toNat, e.type.toNat⟩

end Entry

/-- The entry is at `a`. -/
def EntryAt (m : Memory) (a : Nat) (e : Entry) : Prop :=
  m.load32 a = e.size ∧ m.load64 (a + 4) = e.base.toNat ∧ m.load64 (a + 12) = e.length.toNat ∧
    m.load32 (a + 20) = e.type.toNat

/-- The area is the sequence of these entries, up to its end. -/
def Spelled (mm : Mmap) (m : Memory) (entries : List Entry) : Prop :=
  Laid Entry.span (EntryAt m) mm.addr entries (mm.addr + mm.length)

/-- The records of the entries fit the page. -/
def Fits (entries : List Entry) : Prop := firstRecord + 24 * entries.length ≤ address + pageSize

/-- The loop ends, and when the area is a sequence of well-formed entries whose records fit, the
memory map of the page is those entries, in order. -/
structure Imported (mm : Mmap) (m : Memory) : Prop where
  ends : ∃ fuel b, mm.walk m fuel = some b
  records : ∀ entries, Spelled mm m entries → Fits entries →
    ∀ fuel b, mm.walk m fuel = some b → ∀ fuel', pageSize ≤ fuel' →
      b.mmapEntries fuel' = some (entries.map Entry.mmapEntry)

/-- An area of well-formed entries whose records fit does not begin at the null pointer, and it
does not end where the address space does, unless it is one entry. -/
def Placed (mm : Mmap) (m : Memory) : Prop :=
  ∀ entries, Spelled mm m entries → Fits entries →
    mm.addr ≠ 0 ∧ (mm.addr + mm.length < wordSize ∨ entries.length = 1)

/-- The header of the page, the records before `free` and the next record, which is that of the
entry, are not written over what is read of the entry at `a`; and so on for those behind it. -/
def UntouchedFrom : Nat → Nat → List Entry → Prop
  | _, _, [] => True
  | free, a, e :: es =>
      (a + 24 ≤ address ∨ free + 24 ≤ a) ∧ UntouchedFrom (free + 24) (a + e.span) es

/-- No record is written over well-formed entries, whose records fit, before they are read. -/
def Untouched (mm : Mmap) (m : Memory) : Prop :=
  ∀ entries, Spelled mm m entries → Fits entries → UntouchedFrom firstRecord mm.addr entries

/-! ## §5. The entries that are read. -/

theorem Spelled.ne_nil {entries : List Entry} (h : Spelled mm m entries) : entries ≠ [] := by
  intro hnil
  have hpos := mm.nonempty
  have hend := h.end_eq
  rw [hnil] at hend
  simp only [List.map_nil, List.sum_nil] at hend
  omega

theorem Entry.span_pos (e : Entry) : 0 < e.span := Nat.succ_pos _

/-- Behind the last entry there is none. -/
theorem nextEntry_of_last {e : Entry} (hsize : m.load32 a = e.size)
    (hend : a + e.span = mm.addr + mm.length) : mm.nextEntry m a = 0 := by
  have hnext : add32 (add32 a (m.load32 a)) 4 = add32 mm.addr mm.length := by
    rw [hsize]
    unfold Entry.span at hend
    simp only [add32, wordSize]
    omega
  unfold Mmap.nextEntry
  dsimp only
  rw [hnext, if_neg (Nat.lt_irrefl _)]
  split <;> rfl

/-- Behind an entry that is not the last one there is the next one. -/
theorem nextEntry_of_more {e : Entry} (ha : a ≠ 0) (hsize : m.load32 a = e.size)
    (hmore : a + e.span < mm.addr + mm.length) (hend : mm.addr + mm.length < wordSize) :
    mm.nextEntry m a = a + e.span := by
  have hnext : add32 (add32 a (m.load32 a)) 4 = a + e.span := by
    rw [hsize]
    unfold Entry.span at hmore ⊢
    simp only [add32, wordSize] at hend ⊢
    omega
  unfold Mmap.nextEntry
  dsimp only
  rw [if_neg ha, hnext, add32_eq hend, if_pos hmore]

/-- From the page `b` on, the record that is made of each entry is its own, and its size is read
when the record has been written. -/
def CopiedFrom : Page → Nat → List Entry → Prop
  | _, _, [] => True
  | b, a, e :: es =>
      b.entryRecord a = e.record ∧
        ((b.append e.record).2.image (b.append e.record).2.mem).load32 a = e.size ∧
        CopiedFrom (b.append e.record).2 (a + e.span) es

/-- **The loop comes to the end of the entries** with a record for each of them. -/
theorem reaches_end {entries : List Entry} {At : Nat → Entry → Prop} (h : Holds b log)
    (hlaid : Laid Entry.span At a entries (mm.addr + mm.length)) (hne : entries ≠ [])
    (ha : a ≠ 0) (hend : mm.addr + mm.length < wordSize ∨ entries.length = 1)
    (hroom : b.free + 24 * entries.length ≤ address + pageSize) (hcopied : CopiedFrom b a entries) :
    ∃ b', Chase.Reaches mm.turn (a, b) (0, b') ∧ Holds b' (log ++ entries.map Entry.record) := by
  induction entries generalizing a b log with
  | nil => exact absurd rfl hne
  | cons e es ih =>
      obtain ⟨hrecord, hsize, hrest⟩ := hcopied
      obtain ⟨-, hlaid⟩ := hlaid
      rw [List.length_cons] at hroom
      have hfits : b.willOverflow e.record.size = false := by
        rw [h.willOverflow_iff]
        show b.free + 24 ≤ _
        omega
      obtain ⟨hok, hfree⟩ := append_of_room hfits
      have hholds := append_holds h hok
      have hfree' : (b.append e.record).2.free = b.free + 24 := hfree
      have hpage : (b.appendEntry a).2 = (b.append e.record).2 := by
        rw [Page.appendEntry, hrecord]
      -- from here on the page with the record is any page
      obtain ⟨b₁, hb₁⟩ : ∃ b₁, b₁ = (b.append e.record).2 := ⟨_, rfl⟩
      rw [← hb₁] at hholds hfree' hpage hsize hrest
      clear hb₁ hok hfree
      have hlink : ∀ a', mm.nextEntry (b₁.image b₁.mem) a = a' →
          Chase.Link mm.turn (a, b) (a', b₁) := by
        intro a' hnext
        rw [Mmap.link_iff, hpage]
        exact ⟨ha, hnext.symm, rfl⟩
      cases es with
      | nil =>
          have hlast : a + e.span = mm.addr + mm.length := hlaid
          exact ⟨b₁, .single (hlink 0 (nextEntry_of_last hsize hlast)), hholds⟩
      | cons e' es =>
          have hsingle : (e :: e' :: es).length ≠ 1 := by simp
          have hlt : mm.addr + mm.length < wordSize := hend.resolve_right hsingle
          have hmore : a + e.span < mm.addr + mm.length :=
            Nat.lt_of_lt_of_le (Nat.lt_add_of_pos_right e'.span_pos) hlaid.2.le
          have hnext := nextEntry_of_more ha hsize hmore hlt
          obtain ⟨b', hreach, hb'⟩ := ih hholds hlaid (List.cons_ne_nil _ _) (by omega) (.inl hlt)
            (by rw [hfree']; omega) hrest
          rw [List.append_assoc] at hb'
          exact ⟨b', .head (hlink _ hnext) hreach, hb'⟩

/-! ## §6. When the map is imported. -/

/-- The page that the loop leaves is the one at its end. -/
theorem walk_eq_of_reaches {b' : Page} {fuel : Nat}
    (hreach : Chase.Reaches mm.turn (mm.firstEntry, create m) (0, b'))
    (hwalk : mm.walk m fuel = some b) : b = b' := by
  obtain ⟨z, hz, hr⟩ := Chase.reaches_of_run hwalk
  have hsame := (Chase.settles_run hz hr).unique (Chase.settles_run hreach (mm.turn_null b'))
  exact Option.some.inj hsame

theorem map_record_mmapEntry (entries : List Entry) :
    (entries.map Entry.record).filterMap Record.mmapEntry = entries.map Entry.mmapEntry := by
  induction entries with
  | nil => rfl
  | cons e es ih =>
      rw [List.map_cons, List.map_cons, ← ih]
      rfl

/-- In an area that ends where the address space does, the loop makes one record at most. -/
theorem length_le_one (hend : ¬ mm.addr + mm.length < wordSize) {entries : List Entry}
    (himported : Imported mm m) (hspelled : Spelled mm m entries) (hfits : Fits entries) :
    entries.length ≤ 1 := by
  -- the end is the null pointer, and nothing is before it
  have hnull : ∀ m' a', mm.nextEntry m' a' = 0 := by
    intro m' a'
    have hinside := mm.inside
    have hzero : add32 mm.addr mm.length = 0 := by
      simp only [add32, wordSize] at hend hinside ⊢
      omega
    unfold Mmap.nextEntry
    dsimp only
    rw [hzero, if_neg (Nat.not_lt_zero _)]
    split <;> rfl
  have hpage : ∃ b log, Chase.Reaches mm.turn (mm.firstEntry, create m) (0, b) ∧ Holds b log ∧
      log.length ≤ 1 := by
    by_cases ha : mm.firstEntry = 0
    · rw [ha]
      exact ⟨create m, [], .refl, create_holds m, Nat.zero_le _⟩
    · have hlink : Chase.Link mm.turn (mm.firstEntry, create m)
          (0, ((create m).appendEntry mm.firstEntry).2) := by
        rw [Mmap.link_iff]
        exact ⟨ha, (hnull _ _).symm, rfl⟩
      cases hroom : (create m).willOverflow 24 with
      | true =>
          rw [appendEntry_of_full hroom] at hlink
          exact ⟨create m, [], .single hlink, create_holds m, Nat.zero_le _⟩
      | false =>
          exact ⟨_, _, .single hlink, (appendEntry_of_room (create_holds m) hroom _).1,
            Nat.le_refl _⟩
  obtain ⟨b, log, hreach, hb, hlen⟩ := hpage
  obtain ⟨fuel, b', hwalk⟩ := himported.ends
  have hsame := walk_eq_of_reaches hreach hwalk
  have hrecords := himported.records entries hspelled hfits fuel b' hwalk pageSize (Nat.le_refl _)
  rw [hsame, hb.mmapEntries (Nat.le_refl _)] at hrecords
  have hcount := congrArg List.length (Option.some.inj hrecords)
  rw [List.length_map] at hcount
  calc entries.length = (log.filterMap Record.mmapEntry).length := hcount.symm
    _ ≤ log.length := List.length_filterMap_le _ _
    _ ≤ 1 := hlen

/-- A map that is imported is at no place where its entries are lost. -/
theorem placed_of_imported (himported : Imported mm m) : Placed mm m := by
  intro entries hspelled hfits
  have hne := List.length_pos_iff.mpr hspelled.ne_nil
  constructor
  · intro hzero
    have hwalk : mm.walk m 1 = some (create m) := by
      unfold Mmap.walk Mmap.firstEntry
      rw [hzero]
      exact Chase.run_of_result (mm.turn_null _)
    have hrecords := himported.records entries hspelled hfits 1 _ hwalk pageSize (Nat.le_refl _)
    rw [(create_holds m).mmapEntries (Nat.le_refl _)] at hrecords
    have hcount := congrArg List.length (Option.some.inj hrecords)
    rw [List.length_map] at hcount
    exact absurd hcount.symm (Nat.ne_of_gt hne)
  · by_cases hend : mm.addr + mm.length < wordSize
    · exact .inl hend
    · have hle := length_le_one hend himported hspelled hfits
      exact .inr (by omega)

/-! ## §7. What the records are written over. -/

/-- An address that is not in the page, as far as it has been written. -/
def Unwritten (free x : Nat) : Prop := x < wordSize ∧ (x < address ∨ free ≤ x)

theorem Unwritten.mono {free free' x : Nat} (h : Unwritten free' x) (hle : free ≤ free') :
    Unwritten free x := by
  unfold Unwritten at *
  omega

/-- Outside of the header there is what is in the memory. -/
theorem byte_image (b : Page) (m : Memory) {x : Nat} (hx : Unwritten firstRecord x) :
    (b.image m).byte x = m.byte x := by
  obtain ⟨hlt, hx⟩ := hx
  unfold firstRecord at hx
  unfold Page.image
  dsimp only
  rw [Nat.mod_eq_of_lt hlt, byte_store32_ne _ _ _ _ (by omega), byte_store32_ne _ _ _ _ (by omega),
    byte_store32_ne _ _ _ _ (by omega), byte_store32_ne _ _ _ _ (by omega)]

/-- A record changes its own bytes only. -/
theorem byte_append_ne {r : Record} (hroom : b.willOverflow r.size = false) {x : Nat}
    (hx : x < b.free ∨ b.free + r.size ≤ x) : (b.append r).2.mem.byte x = b.mem.byte x := by
  have hno : ¬ b.willOverflow r.size = true := by
    rw [hroom]
    decide
  have hmin := r.size_bounds.1
  obtain ⟨hmem, hfree⟩ := noteModule_mem b r
  rw [Page.append, if_neg hno]
  dsimp only
  rw [hmem, hfree, byte_putFields_ne _ _ (by omega), byte_store16_ne _ _ _ _ (by omega),
    byte_store16_ne _ _ _ _ (by omega)]

/-- A call changes nothing but what is then written of the page. -/
theorem byte_append_unwritten (h : Holds b log) (r : Record) {x : Nat}
    (hx : Unwritten (b.append r).2.free x) : (b.append r).2.mem.byte x = b.mem.byte x := by
  cases hroom : b.willOverflow r.size with
  | true => rw [append_of_full hroom]
  | false =>
      have hge : address ≤ b.free := Nat.le_trans (by decide) h.free_ge
      rw [(append_of_room hroom).2] at hx
      apply byte_append_ne hroom
      have := hx.2
      omega

/-- An entry that is not written over is read as it is in memory. -/
theorem entryRecord_of_unwritten {e : Entry} (hentry : EntryAt b.mem a e)
    (hfirst : firstRecord ≤ b.free) (hout : ∀ x, a ≤ x → x < a + 24 → Unwritten (b.free + 24) x) :
    b.entryRecord a = e.record := by
  obtain ⟨-, hbase, hlength, htype⟩ := hentry
  have hge : address ≤ b.free := Nat.le_trans (by decide) hfirst
  -- none of the bytes is in the record that is being written
  have hread : ∀ m' : Memory, (∀ x, x < b.free ∨ b.free + 24 ≤ x → m'.byte x = b.mem.byte x) →
      ∀ x, a ≤ x → x < a + 24 → (b.image m').byte x = b.mem.byte x := by
    intro m' hsame x hx hx'
    have hx'' := hout x hx hx'
    have hne : x < b.free ∨ b.free + 24 ≤ x := by
      have := hx''.2
      omega
    rw [byte_image b m' (hx''.mono (by omega)), hsame x hne]
  have hheader : ∀ x, x < b.free ∨ b.free + 24 ≤ x →
      ((b.mem.store16 b.free 2).store16 (b.free + 2) 24).byte x = b.mem.byte x := by
    intro x hx
    rw [byte_store16_ne _ _ _ _ (by omega), byte_store16_ne _ _ _ _ (by omega)]
  have hstart : ∀ v x, x < b.free ∨ b.free + 24 ≤ x →
      (((b.mem.store16 b.free 2).store16 (b.free + 2) 24).store64 (b.free + 4) v).byte x
        = b.mem.byte x := by
    intro v x hx
    rw [byte_store64_ne _ _ _ _ (by omega), hheader x hx]
  have hlen : ∀ v w x, x < b.free ∨ b.free + 24 ≤ x →
      ((((b.mem.store16 b.free 2).store16 (b.free + 2) 24).store64 (b.free + 4) v).store64
        (b.free + 12) w).byte x = b.mem.byte x := by
    intro v w x hx
    rw [byte_store64_ne _ _ _ _ (by omega), hstart v x hx]
  unfold Page.entryRecord
  dsimp only
  rw [load64_congr fun x h1 h2 => hread _ hheader x (by omega) (by omega),
    load64_congr fun x h1 h2 => hread _ (hstart _) x (by omega) (by omega),
    load32_congr fun x h1 h2 => hread _ (hlen _ _) x (by omega) (by omega), hbase, hlength, htype]
  unfold Entry.record
  simp only [BitVec.ofNat_toNat, BitVec.setWidth_eq]

/-- **Entries that are not written over** are copied, one by one. -/
theorem copiedFrom_of_untouched {entries : List Entry} (h : Holds b log)
    (hlaid : Laid Entry.span (EntryAt m) a entries (mm.addr + mm.length))
    (hsame : ∀ x, Unwritten b.free x → b.mem.byte x = m.byte x)
    (hroom : b.free + 24 * entries.length ≤ address + pageSize)
    (huntouched : UntouchedFrom b.free a entries) : CopiedFrom b a entries := by
  induction entries generalizing a b log with
  | nil => trivial
  | cons e es ih =>
      obtain ⟨hentry, hrest⟩ := hlaid
      obtain ⟨hplace, huntouched⟩ := huntouched
      have hle := hrest.le
      have hinside := mm.inside
      have hspan : 24 ≤ e.span := Nat.add_le_add_right e.size_ge 4
      have hfirst := h.free_ge
      rw [List.length_cons] at hroom
      have hout : ∀ x, a ≤ x → x < a + 24 → Unwritten (b.free + 24) x := by
        intro x hx hx'
        unfold Unwritten
        omega
      have hbyte : ∀ x, a ≤ x → x < a + 24 → b.mem.byte x = m.byte x := by
        intro x hx hx'
        exact hsame x ((hout x hx hx').mono (Nat.le_add_right _ _))
      have hread : EntryAt b.mem a e := by
        obtain ⟨hsize, hbase, hlength, htype⟩ := hentry
        refine ⟨?_, ?_, ?_, ?_⟩
        · rw [load32_congr fun x h1 h2 => hbyte x (by omega) (by omega), hsize]
        · rw [load64_congr fun x h1 h2 => hbyte x (by omega) (by omega), hbase]
        · rw [load64_congr fun x h1 h2 => hbyte x (by omega) (by omega), hlength]
        · rw [load32_congr fun x h1 h2 => hbyte x (by omega) (by omega), htype]
      have hfits : b.willOverflow e.record.size = false := by
        rw [h.willOverflow_iff]
        show b.free + 24 ≤ _
        omega
      obtain ⟨hok, hfree⟩ := append_of_room hfits
      have hfree' : (b.append e.record).2.free = b.free + 24 := hfree
      have hnext : ∀ x, Unwritten (b.append e.record).2.free x →
          (b.append e.record).2.mem.byte x = m.byte x := by
        intro x hx
        rw [byte_append_unwritten h e.record hx]
        exact hsame x (hx.mono (by omega))
      refine ⟨entryRecord_of_unwritten hread hfirst hout, ?_,
        ih (append_holds h hok) hrest hnext (by rw [hfree']; omega) (by rw [hfree']; exact huntouched)⟩
      -- the size is read from the page with the record
      rw [load32_congr fun x h1 h2 =>
          byte_image _ _ ((hout x (by omega) (by omega)).mono (by omega)),
        load32_congr fun x h1 h2 => hnext x (by rw [hfree']; exact hout x (by omega) (by omega)),
        hentry.1]

/-- A map of which nothing is written over, and that leads to no entry again and is placed well. -/
theorem imported_of_untouched (hacyclic : Acyclic mm m) (hplaced : Placed mm m)
    (huntouched : Untouched mm m) : Imported mm m := by
  refine ⟨(walk_ends_iff mm m).mpr hacyclic, ?_⟩
  intro entries hspelled hfits fuel b hwalk fuel' hfuel'
  obtain ⟨haddr, hend⟩ := hplaced entries hspelled hfits
  have hcopied : CopiedFrom (create m) mm.addr entries :=
    copiedFrom_of_untouched (create_holds m) hspelled (fun _ _ => rfl) hfits
      (huntouched entries hspelled hfits)
  obtain ⟨b', hreach, hb'⟩ := reaches_end (create_holds m) hspelled hspelled.ne_nil haddr hend
    hfits hcopied
  rw [walk_eq_of_reaches hreach hwalk, hb'.mmapEntries hfuel', List.nil_append,
    map_record_mmapEntry]

/-! ## §8. When the memory map is imported. -/

/-- **When the memory map of the boot loader is imported.**  Only when no entry leads back to itself
once the page is full and the area is placed well; and then it is, when no record is written over
entries of the area before they have been read. -/
theorem imported_iff (mm : Mmap) (m : Memory) :
    (Imported mm m → Acyclic mm m ∧ Placed mm m) ∧
    (Untouched mm m → (Imported mm m ↔ Acyclic mm m ∧ Placed mm m)) := by
  have honly : Imported mm m → Acyclic mm m ∧ Placed mm m := by
    intro himported
    exact ⟨(walk_ends_iff mm m).mp himported.ends, placed_of_imported himported⟩
  refine ⟨honly, fun huntouched => ⟨honly, ?_⟩⟩
  intro ⟨hacyclic, hplaced⟩
  exact imported_of_untouched hacyclic hplaced huntouched

/-- The area does not touch the page. -/
def Mmap.Apart (mm : Mmap) : Prop :=
  mm.addr + mm.length ≤ address ∨ address + pageSize ≤ mm.addr

theorem untouchedFrom_of_apart (hapart : mm.Apart) {entries : List Entry} {free : Nat}
    (hlaid : Laid Entry.span (EntryAt m) a entries (mm.addr + mm.length)) (ha : mm.addr ≤ a)
    (hroom : free + 24 * entries.length ≤ address + pageSize) : UntouchedFrom free a entries := by
  induction entries generalizing a free with
  | nil => trivial
  | cons e es ih =>
      have hle := hlaid.2.le
      have hspan : 24 ≤ e.span := Nat.add_le_add_right e.size_ge 4
      rw [List.length_cons] at hroom
      refine ⟨?_, ih hlaid.2 (by omega) (by omega)⟩
      unfold Mmap.Apart at hapart
      omega

/-- Records are not written over areas apart from the page. -/
theorem untouched_of_apart (hapart : mm.Apart) (m : Memory) : Untouched mm m := by
  intro entries hspelled hfits
  exact untouchedFrom_of_apart hapart hspelled (Nat.le_refl _) hfits

/-- An area of two entries, the first with four bytes more than its fields. -/
def twoMap : Mmap := ⟨52, 0x10000, by decide, by decide⟩

def twoEntries : List Entry := [⟨24, 0, 0x9fc00, 1, by decide⟩, ⟨20, 0x100000, 0x700000, 1, by decide⟩]

def twoMemory : Memory where
  byte x := ([24, 0, 0, 0, 0, 0, 0, 0, 0, 0, 0, 0, 0, 0xfc, 9, 0, 0, 0, 0, 0, 1, 0, 0, 0, 0, 0, 0, 0,
    20, 0, 0, 0, 0, 0, 0x10, 0, 0, 0, 0, 0, 0, 0, 0x70, 0, 0, 0, 0, 0, 1, 0, 0, 0] :
      List UInt8).getD (x - 0x10000) 0
  stores := []

/-- Both entries get into the page, with their bases, lengths and types. -/
theorem imported_two :
    Untouched twoMap twoMemory ∧ Imported twoMap twoMemory ∧
    ∃ b, twoMap.walk twoMemory 3 = some b ∧
      b.mmapEntries pageSize = some [⟨0, 0x9fc00, 1⟩, ⟨0x100000, 0x700000, 1⟩] := by
  have huntouched : Untouched twoMap twoMemory :=
    untouched_of_apart (by unfold Mmap.Apart; decide) twoMemory
  obtain ⟨b, hb⟩ : ∃ b, twoMap.walk twoMemory 3 = some b :=
    Option.isSome_iff_exists.mp (by decide +kernel)
  have himported : Imported twoMap twoMemory := by
    refine ((imported_iff twoMap twoMemory).2 huntouched).mpr ⟨(walk_ends_iff _ _).mp ⟨3, b, hb⟩, ?_⟩
    intro entries _ _
    exact ⟨by decide, .inl (by decide)⟩
  have hspelled : Spelled twoMap twoMemory twoEntries :=
    ⟨⟨by decide +kernel, by decide +kernel, by decide +kernel, by decide +kernel⟩,
      ⟨by decide +kernel, by decide +kernel, by decide +kernel, by decide +kernel⟩, rfl⟩
  exact ⟨huntouched, himported, b, hb,
    himported.records twoEntries hspelled (by unfold Fits; decide) 3 b hb pageSize (Nat.le_refl _)⟩

/-- An area of one entry, whose size field is -4. -/
def stillMap : Mmap := ⟨24, 0x10000, by decide, by decide⟩

def stillMemory : Memory where
  byte x := if x = 0x10000 then 0xfc else if 0x10000 < x ∧ x < 0x10004 then 0xff else 0
  stores := []

/-- An area of two entries that ends where the address space does. -/
def topMap : Mmap := ⟨48, 0xffffffd0, by decide, by decide⟩

def topMemory : Memory where
  byte x := if x = 0xffffffd0 ∨ x = 0xffffffe8 then 20 else 0
  stores := []

/-- With the entry in memory, it is the one behind itself. -/
theorem nextEntry_still
    (hsame : ∀ x, Unwritten (address + pageSize) x → b.mem.byte x = stillMemory.byte x) :
    stillMap.nextEntry (b.image b.mem) 0x10000 = 0x10000 := by
  have hout : ∀ x, 0x10000 ≤ x → x < 0x10000 + 4 → Unwritten (address + pageSize) x := by
    intro x hx hx'
    unfold Unwritten
    simp only [wordSize, address, pageSize]
    omega
  have hsize : (b.image b.mem).load32 0x10000 = 0xfffffffc := by
    rw [load32_congr fun x h1 h2 => byte_image b b.mem ((hout x h1 h2).mono (by decide)),
      load32_congr fun x h1 h2 => hsame x (hout x h1 h2)]
    decide
  unfold Mmap.nextEntry
  rw [hsize]
  decide

/-- **An entry that leads to itself**: the loop never ends. -/
theorem walk_still (fuel : Nat) : stillMap.walk stillMemory fuel = none := by
  let P (x : Nat × Page) : Prop := x.1 = 0x10000 ∧ (∃ log, Holds x.2 log) ∧
    ∀ y, Unwritten (address + pageSize) y → x.2.mem.byte y = stillMemory.byte y
  have hstep : ∀ x, P x → ∃ y, Chase.Link stillMap.turn x y ∧ P y := by
    intro ⟨a, b⟩ ⟨ha, ⟨log, hlog⟩, hsame⟩
    obtain rfl : a = 0x10000 := ha
    obtain ⟨log', hlog'⟩ := appendEntry_holds hlog 0x10000
    have hsame' : ∀ y, Unwritten (address + pageSize) y →
        (b.appendEntry 0x10000).2.mem.byte y = stillMemory.byte y := by
      intro y hy
      have hinside := hlog'.inside
      have hbyte : (b.appendEntry 0x10000).2.mem.byte y = b.mem.byte y := by
        rw [Page.appendEntry] at hinside ⊢
        exact byte_append_unwritten hlog _ (hy.mono hinside)
      rw [hbyte, hsame y hy]
    have hnext := (nextEntry_still hsame').symm
    obtain ⟨b', hb'⟩ : ∃ b', b' = (b.appendEntry 0x10000).2 := ⟨_, rfl⟩
    have hlink : Chase.Link stillMap.turn (0x10000, b) (0x10000, b') :=
      Mmap.link_iff.mpr ⟨by decide, hnext, hb'⟩
    rw [← hb'] at hsame' hlog'
    exact ⟨(0x10000, b'), hlink, rfl, ⟨log', hlog'⟩, hsame'⟩
  exact Chase.run_of_invariant hstep ⟨rfl, ⟨[], create_holds _⟩, fun _ _ => rfl⟩ fuel

theorem not_imported_still : ¬ Imported stillMap stillMemory ∧ ¬ Imported topMap topMemory := by
  constructor
  · intro himported
    obtain ⟨fuel, b, hwalk⟩ := himported.ends
    rw [walk_still] at hwalk
    cases hwalk
  · intro himported
    have hspelled : Spelled topMap topMemory [⟨20, 0, 0, 0, by decide⟩, ⟨20, 0, 0, 0, by decide⟩] :=
      ⟨⟨rfl, rfl, rfl, rfl⟩, ⟨rfl, rfl, rfl, rfl⟩, rfl⟩
    obtain ⟨-, hend⟩ := placed_of_imported himported _ hspelled (by unfold Fits; decide)
    revert hend
    decide

end Metta.Bootinfo
