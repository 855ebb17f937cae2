/-
  Metta.RootDomain.Bootstrap — the frame allocator gets its memory, from
  modules/tcb/root_domain/entry.cpp and mmu_mod.cpp of
  modules/tcb/platform/pc99/mmu_mod.

  The root domain asks the frames module how much memory it needs, has the mmu
  module take that much with its own, and has the frames module make its
  records there.  But taking the memory puts an entry of type `system_data` on
  the map, and the frames module makes a region of it that was not counted.

    • `memoryRequired`, `mmuCreate` — the memory of the mmu,
    • `bootstrap` — the three calls,
    • `RoomFor` — the rounding to a page has room for one more region,
    • `bootstrap_fits_iff` — the records fit exactly then.
-/
import Metta.Bootinfo.HighMem
import Metta.FramesMod.InMemory

namespace Metta.RootDomain

open Metta.Machine Metta.FramesMod Memory
open Metta.Bootinfo (Page Record Holds appendAll appendAll_holds create_holds pageSize address)

/-! ## §1. The mmu module. -/

/-- `bitmap_index`. -/
def bitmapIndex (va : Nat) : Nat := va / 2 ^ 27

/-- `bitmap_bit`. -/
def bitmapBit (va : Nat) : Nat := va / 2 ^ 22 % 32

/-- The tables that a mapping needs. -/
def markTables (bitmap : List (BitVec 32)) (e : Page.Mapping) : List (BitVec 32) :=
  (List.range e.nframes).foldl (fun bitmap j =>
    let va := add32 e.virt (shl32 j frameWidth)
    bitmap.modify (bitmapIndex va) (· ||| 1#32 <<< bitmapBit va)) bitmap

/-- The loop over the bits of a word. -/
def countBits : Nat → BitVec 32 → Nat
  | 0, _ => 0
  | n + 1, word =>
      if word = 0 then 0 else (if word &&& 1 = 1 then 1 else 0) + countBits n (word >>> 1)

/-- `sizeof(mmu_v1::state_t)`. -/
def mmuStateSize : Nat := 13896

/-- `N_EXTRA_L2S`. -/
def nExtraL2s : Nat := 32

/-- `L2SIZE`. -/
def l2Size : Nat := 8192

/-- `memory_required`: the bytes and the number of tables. -/
def memoryRequired (es : List Page.Mapping) : Nat × Nat :=
  let bitmap := es.foldl markTables (List.replicate 32 0)
  let nL2Tables := (bitmap.map (countBits 32)).sum + nExtraL2s
  (add32 mmuStateSize nL2Tables, nL2Tables)

/-- What `mmu_module_v1_create` has taken, where it is free for the caller, and the boot
info page. -/
structure Reservation where
  firstRange : Nat
  neededBytes : Nat
  free : Nat
  page : Page

/-- The entry that the mmu module puts on the map, of type `system_data`. -/
def Reservation.entry (mmu : Reservation) : Page.MmapEntry := ⟨mmu.firstRange, mmu.neededBytes, 122⟩

/-- `mmu_module_v1_create`, up to its own record, which it makes in the memory that it
has taken. -/
def mmuCreate (b : Page) (initialReservation fuel : Nat) : Option (Except Fault Reservation) := do
  let vmaps ← b.mappings fuel
  let (bytes, nL2Tables) := memoryRequired vmaps
  let ramtabOffset := pageAlignUp bytes
  let top ← b.findUsablePhysicalMemoryTop fuel
  let l2TablesOffset := pageAlignUp (add32 ramtabOffset (top / 4096 * 8))
  let needed := pageAlignUp (add32 (add32 l2TablesOffset (nL2Tables * l2Size)) initialReservation)
  let found ← b.findHighmemRangeOfAtLeast needed fuel
  let firstRange := pageAlignUp found
  let (used, page) ← b.useMemory (.ofNat 32 firstRange) (.ofNat 32 needed) 122 fuel
  return if used then
      .ok ⟨firstRange, needed, add32 (add32 firstRange l2TablesOffset) (nL2Tables * l2Size), page⟩
    else .error (.panic "Unable to use memory for initial MMU setup!")

/-! ## §2. The bootstrap. -/

/-- `initial_heap_size`. -/
def initialHeapSize : Nat := 131072

/-- What the bootstrap has come to: the size that was asked for, what the mmu has taken,
and the memory once the frames module is done. -/
structure Bootstrapped where
  required : Nat
  mmu : Reservation
  page : Page
  ended : Except Fault Unit

/-- The part of `init` that makes the frame allocator. -/
def bootstrap (methods rtab : Nat) (b : Page) (fuel : Nat) :
    Option (Except Fault Bootstrapped) := do
  let required ← requiredSize b fuel
  match ← mmuCreate b (add32 required initialHeapSize) fuel with
  | .error fault => return .error fault
  | .ok mmu =>
      let (page, ended) ← createAt methods rtab mmu.free fuel mmu.page
      return .ok ⟨required, mmu, page, ended⟩

/-- The records that the frames module writes lie in the memory it has asked for. -/
def Bootstrapped.Fits (done : Bootstrapped) : Prop :=
  Stored (Between done.mmu.free (done.mmu.free + done.required)) done.mmu.page.mem done.page.mem

/-! ## §3. What is asked for. -/

theorem pageAlignUp_eq (a : Nat) : pageAlignUp a = (a + 4095) % wordSize / 4096 * 4096 := by
  have hsub : sub32 (add32 a 4096) 1 = (a + 4095) % wordSize := by
    simp only [sub32, add32, wordSize]
    omega
  rw [pageAlignUp, hsub]
  exact and_highMask (k := 12) (Nat.mod_lt _ (by decide)) (by decide)

theorem pageAlignUp_lt (a : Nat) : pageAlignUp a < wordSize :=
  lt_of_le_of_lt Nat.and_le_left (sub32_lt _ _)

/-- How often four gigabytes go into the lengths of the entries; a region keeps the rest
of its length only. -/
def fourGigs (es : List Page.MmapEntry) : Nat :=
  ((es.filter fun e => e.type ≠ nonFree).map fun e => e.length / wordSize).sum

/-- The region of an entry and the four gigabytes of it make up what is counted. -/
theorem recordSize_mkRegion (e : Page.MmapEntry) :
    (mkRegion (entryOf e)).recordSize + 2 ^ 22 * (e.length / wordSize)
      = regionSize + 4 * (e.length / 2 ^ frameWidth) := by
  have hn : (mkRegion (entryOf e)).nLogicalFrames = e.length % wordSize / 4096 := rfl
  rw [Region.recordSize, hn]
  simp only [regionSize, wordSize, frameWidth]
  omega

theorem countFrames_modEq (es : List Page.MmapEntry) (n : Nat × Nat) :
    let out := es.foldl (fun n e =>
      if e.type = nonFree then n else (add32 n.1 1, add32 n.2 (e.length / 2 ^ frameWidth))) n
    out.1 * regionSize + out.2 * 4
      ≡ n.1 * regionSize + n.2 * 4 + (recordsSize (regionsOf es) + 2 ^ 22 * fourGigs es)
        [MOD wordSize] := by
  induction es generalizing n with
  | nil => exact Nat.ModEq.refl _
  | cons entry es ih =>
      rw [List.foldl_cons, regionsOf_cons]
      by_cases htype : entry.type = nonFree
      · have hgigs : fourGigs (entry :: es) = fourGigs es := by simp [fourGigs, htype]
        rw [if_pos htype, if_pos htype, hgigs]
        exact ih n
      · have hgigs : fourGigs (entry :: es) = entry.length / wordSize + fourGigs es := by
          simp [fourGigs, htype]
        have hsize := recordSize_mkRegion entry
        rw [if_neg htype, if_neg htype, recordsSize_cons, hgigs]
        refine (ih _).trans ?_
        have hfst : add32 n.1 1 * regionSize ≡ (n.1 + 1) * regionSize [MOD wordSize] :=
          (Nat.mod_modEq _ _).mul_right _
        have hsnd : add32 n.2 (entry.length / 2 ^ frameWidth) * 4
            ≡ (n.2 + entry.length / 2 ^ frameWidth) * 4 [MOD wordSize] :=
          (Nat.mod_modEq _ _).mul_right _
        have heq : (n.1 + 1) * regionSize + (n.2 + entry.length / 2 ^ frameWidth) * 4
              + (recordsSize (regionsOf es) + 2 ^ 22 * fourGigs es)
            = n.1 * regionSize + n.2 * 4 + ((mkRegion (entryOf entry)).recordSize
              + recordsSize (regionsOf es)
              + 2 ^ 22 * (entry.length / wordSize + fourGigs es)) := by
          rw [Nat.add_mul, Nat.add_mul, Nat.mul_add]
          omega
        refine ((hfst.add hsnd).add_right _).trans ?_
        rw [heq]

/-- **What is asked for**: the records of the map and one closure, modulo `2 ^ 32` and
rounded up to a page. -/
theorem sizeFor_eq (es : List Page.MmapEntry) :
    sizeFor es = ((closureSize + clientSize + recordsSize (regionsOf es) + 2 ^ 22 * fourGigs es)
      % wordSize + 4095) % wordSize / 4096 * 4096 := by
  have hcount := countFrames_modEq es (0, 0)
  simp only [Nat.zero_mul, Nat.zero_add] at hcount
  have hsum : add32 (add32 (closureSize + clientSize) ((countFrames es).1 * regionSize))
      ((countFrames es).2 * 4) = (closureSize + clientSize + recordsSize (regionsOf es)
        + 2 ^ 22 * fourGigs es) % wordSize := by
    simp only [add32]
    rw [Nat.mod_add_mod, Nat.add_assoc, Nat.add_assoc (closureSize + clientSize)]
    exact Nat.ModEq.add_left _ hcount
  simp only [sizeFor]
  rw [hsum, pageAlignUp_eq]

/-! ## §4. What is taken and what is written. -/

variable {b : Page} {log : List Record} {fuel : Nat}

theorem regionsOf_append (es : List Page.MmapEntry) (e : Page.MmapEntry)
    (h : e.type ≠ nonFree) : regionsOf (es ++ [e]) = regionsOf es ++ [mkRegion (entryOf e)] := by
  induction es with
  | nil => rw [List.nil_append, regionsOf_cons, if_neg h]; rfl
  | cons e' es ih =>
      rw [List.cons_append, regionsOf_cons, regionsOf_cons, ih]
      split <;> rfl

/-- What the records of a map take once the mmu has put its entry on it. -/
theorem recordsSize_entry (es : List Page.MmapEntry) (mmu : Reservation)
    (h : mmu.neededBytes < wordSize) :
    recordsSize (regionsOf (es ++ [mmu.entry]))
      = recordsSize (regionsOf es) + (regionSize + 4 * (mmu.neededBytes / 4096)) := by
  have hn : (mkRegion (entryOf mmu.entry)).nLogicalFrames = mmu.neededBytes % wordSize / 4096 := rfl
  rw [regionsOf_append es mmu.entry (show 122 ≠ nonFree by decide), recordsSize, List.map_append, List.sum_append]
  simp only [List.map_cons, List.map_nil, List.sum_cons, List.sum_nil, Nat.add_zero,
    Region.recordSize, hn, Nat.mod_eq_of_lt h]
  rfl

/-- The mmu module comes to an end, and if it has found memory then that is on the map. -/
theorem mmuCreate_cases (h : Holds b log) (hfuel : pageSize ≤ fuel) (n : Nat) :
    ∃ r, mmuCreate b n fuel = some r ∧ ∀ mmu, r = .ok mmu → mmu.neededBytes < wordSize ∧
      ∃ log', Holds mmu.page log' ∧
        log'.filterMap Record.mmapEntry = log.filterMap Record.mmapEntry ++ [mmu.entry] := by
  obtain ⟨top, htop⟩ : ∃ top, b.findUsablePhysicalMemoryTop fuel = some top := by
    rw [Page.findUsablePhysicalMemoryTop, h.mmapEntries hfuel]
    exact ⟨_, rfl⟩
  have hfound : ∀ bytes, ∃ found, b.findHighmemRangeOfAtLeast bytes fuel = some found := by
    intro bytes
    rw [Page.findHighmemRangeOfAtLeast, h.mmapEntries hfuel]
    exact ⟨_, rfl⟩
  obtain ⟨bytes, nL2Tables, hbytes⟩ : ∃ bytes nL2Tables,
      memoryRequired (log.filterMap Record.mapping) = (bytes, nL2Tables) := ⟨_, _, rfl⟩
  obtain ⟨needed, hneeded⟩ : ∃ needed, needed = pageAlignUp (add32 (add32 (pageAlignUp
      (add32 (pageAlignUp bytes) (top / 4096 * 8))) (nL2Tables * l2Size)) n) := ⟨_, rfl⟩
  obtain ⟨found, hfind⟩ := hfound needed
  have hlt : needed < wordSize := hneeded ▸ pageAlignUp_lt _
  obtain ⟨u, hu⟩ : ∃ u : Bootinfo.Request,
      u = ⟨.ofNat 32 (pageAlignUp found), .ofNat 32 needed, 122⟩ := ⟨_, rfl⟩
  have hentry : u.entry = ⟨pageAlignUp found, needed, 122⟩ := by
    rw [hu, Bootinfo.Request.entry, BitVec.toNat_ofNat, BitVec.toNat_ofNat,
      Nat.mod_eq_of_lt (pageAlignUp_lt found), Nat.mod_eq_of_lt hlt]
    rfl
  have huse : b.useMemory (.ofNat 32 (pageAlignUp found)) (.ofNat 32 needed) 122 fuel
      = b.useMemory u.start u.size u.type fuel := by rw [hu]
  simp only [mmuCreate, h.mappings hfuel, htop, hbytes, ← hneeded, hfind, huse,
    Option.bind_eq_bind, Option.bind_some, Option.pure_def]
  rcases Bootinfo.useMemory_cases h hfuel u with hrun | ⟨e, b', hrun, -, -, h'⟩
  · rw [hrun]
    exact ⟨_, rfl, fun mmu hmmu => by cases hmmu⟩
  · rw [hrun]
    refine ⟨_, rfl, fun mmu hmmu => ?_⟩
    rw [if_pos rfl, Except.ok.injEq] at hmmu
    subst hmmu
    refine ⟨hlt, _, h', ?_⟩
    rw [List.filterMap_append, List.filterMap_cons_some (Bootinfo.mmapEntry_request u), hentry]
    rfl

/-! ## §5. When the records fit. -/

/-- The records of the map and one more region fit into what is asked for.  While no
entry has four gigabytes, the rounding to a page has to make room for the region, but for
eight bytes that are asked for twice (`roomFor_iff`). -/
def RoomFor (es : List Page.MmapEntry) (neededBytes : Nat) : Prop :=
  clientSize + recordsSize (regionsOf es) + (regionSize + 4 * (neededBytes / 4096))
    ≤ ((closureSize + clientSize + recordsSize (regionsOf es) + 2 ^ 22 * fourGigs es)
      % wordSize + 4095) % wordSize / 4096 * 4096

theorem roomFor_iff {es : List Page.MmapEntry} {neededBytes : Nat} (hgigs : fourGigs es = 0)
    (hsmall : closureSize + clientSize + recordsSize (regionsOf es) + 4095 < wordSize) :
    RoomFor es neededBytes ↔ 20 + 4 * (neededBytes / 4096)
      ≤ (4096 - (48 + recordsSize (regionsOf es)) % 4096) % 4096 := by
  have hmod : (closureSize + clientSize + recordsSize (regionsOf es) + 2 ^ 22 * fourGigs es)
      % wordSize = closureSize + clientSize + recordsSize (regionsOf es) := by
    rw [hgigs, Nat.mul_zero, Nat.add_zero]
    exact Nat.mod_eq_of_lt (by omega)
  rw [RoomFor, hmod, Nat.mod_eq_of_lt hsmall]
  simp only [closureSize, clientSize, regionSize]
  omega

/-- The memory of the mmu lies above the boot info page, and the records follow below four
gigabytes. -/
def Lands (es : List Page.MmapEntry) (mmu : Reservation) : Prop :=
  address + pageSize ≤ mmu.firstRange ∧ mmu.firstRange ≤ mmu.free ∧
    mmu.free + clientSize + recordsSize (regionsOf (es ++ [mmu.entry])) < wordSize

/-- The bootstrap from where the mmu module has taken its memory. -/
theorem bootstrap_of_mmu (methods : Nat) {rtab : Nat} {mmu : Reservation} (h : Holds b log)
    (hfuel : pageSize ≤ fuel) (hrtab : rtab < wordSize)
    (hmmu : mmuCreate b (add32 (sizeFor (log.filterMap Record.mmapEntry)) initialHeapSize) fuel
      = some (.ok mmu))
    (hlands : Lands (log.filterMap Record.mmapEntry) mmu)
    (hstarts : ∀ entry ∈ log.filterMap Record.mmapEntry ++ [mmu.entry], entry.type = nonFree →
      Starts (regionsOf (log.filterMap Record.mmapEntry ++ [mmu.entry])) entry) :
    ∃ done, bootstrap methods rtab b fuel = some (.ok done) ∧ done.mmu = mmu ∧
      done.required = sizeFor (log.filterMap Record.mmapEntry) ∧
      (done.Fits ↔ RoomFor (log.filterMap Record.mmapEntry) mmu.neededBytes) := by
  obtain ⟨r, hr, hcases⟩ := mmuCreate_cases h hfuel
    (add32 (sizeFor (log.filterMap Record.mmapEntry)) initialHeapSize)
  obtain ⟨hneeded, log', h', hlog⟩ := hcases mmu (Option.some.inj (hr.symm.trans hmmu))
  have hsize := recordsSize_entry (log.filterMap Record.mmapEntry) mmu hneeded
  obtain ⟨hfirst, hfree, hroom⟩ := hlands
  -- the page behind the frames is free, and the log has an entry more now
  have hpage : address + pageSize ≤ mmu.free := le_trans hfirst hfree
  rw [← hlog] at hstarts hroom hsize
  have hsome : regionsOf (log'.filterMap Record.mmapEntry) ≠ [] := by
    rw [hlog, regionsOf_append _ mmu.entry (show 122 ≠ nonFree by decide)]
    simp
  obtain ⟨page, ended, hcreate, hstored, hlast, -⟩ := createAt_stores methods h' hfuel
    hrtab hpage hsome hroom hstarts ⟨0, fun _ => ⟨0, 0, .unused⟩⟩ none
  -- the boot image was measured before the entry was added
  have hrequired : requiredSize b fuel = some (sizeFor (log.filterMap Record.mmapEntry)) := by
    rw [requiredSize, h.mmapEntries hfuel, Option.map_some]
  refine ⟨⟨sizeFor (log.filterMap Record.mmapEntry), mmu, page, ended⟩, ?_, rfl, rfl, ?_⟩
  · simp only [bootstrap, hrequired, hmmu, hcreate, Option.bind_eq_bind, Option.bind_some,
      Option.pure_def]
  · -- what is stored ends within the reservation exactly if the records of the regions do
    have hiff : mmu.free + clientSize + recordsSize (regionsOf (log'.filterMap Record.mmapEntry))
        ≤ mmu.free + sizeFor (log.filterMap Record.mmapEntry)
        ↔ RoomFor (log.filterMap Record.mmapEntry) mmu.neededBytes := by
      rw [hsize, RoomFor, ← sizeFor_eq]
      omega
    rw [← hiff]
    constructor
    · intro hfits
      have hbetween := hfits.of_storedAt hlast
      have hmin : 4 ≤ clientSize := by decide
      have := hbetween.2
      simp only at this
      omega
    · intro hle
      exact hstored.mono fun y hy => ⟨hy.1, le_trans hy.2 hle⟩

/-- **The frame allocator fits its reservation exactly when there is room for one more
region**: on every boot memory map, once the mmu module has found memory for its own and
the reservation, the records of the frames module lie in the memory that was asked for if
and only if `RoomFor` holds. -/
theorem bootstrap_fits_iff (m : Memory) (boot : List Record) (methods : Nat) {rtab : Nat}
    (hrtab : rtab < wordSize) (hfuel : pageSize ≤ fuel) :
    let b := (appendAll (Bootinfo.create m) boot).1
    let es := (appendAll (Bootinfo.create m) boot).2.filterMap Record.mmapEntry
    ∃ r, mmuCreate b (add32 (sizeFor es) initialHeapSize) fuel = some r ∧
      ∀ mmu, r = .ok mmu → Lands es mmu →
        (∀ entry ∈ es ++ [mmu.entry], entry.type = nonFree →
          Starts (regionsOf (es ++ [mmu.entry])) entry) →
        ∃ done, bootstrap methods rtab b fuel = some (.ok done) ∧ done.mmu = mmu ∧
          done.required = sizeFor es ∧ (done.Fits ↔ RoomFor es mmu.neededBytes) := by
  intro b es
  have h : Holds b _ := appendAll_holds (create_holds m) boot
  obtain ⟨r, hr, -⟩ := mmuCreate_cases h hfuel (add32 (sizeFor es) initialHeapSize)
  refine ⟨r, hr, fun mmu hmmu hlands hstarts => ?_⟩
  rw [hmmu] at hr
  exact bootstrap_of_mmu methods h hfuel hrtab hr hlands hstarts

/-- A map of one range of free memory, `n` frames from the first megabyte on. -/
def freeFrames (n : Nat) : List Record := [.mmap 0x100000 (.ofNat 64 (n * 4096)) 1]

/-- Where the memory of the mmu is, how much there is, and where it is free. -/
def Reservation.places : Except Fault Reservation → Option (Nat × Nat × Nat)
  | .ok mmu => some (mmu.firstRange, mmu.neededBytes, mmu.free)
  | .error _ => none

theorem Reservation.of_places {r : Except Fault Reservation} {first needed free : Nat}
    (h : Reservation.places r = some (first, needed, free)) :
    ∃ page, r = .ok ⟨first, needed, free, page⟩ := by
  cases r with
  | error fault => cases h
  | ok mmu =>
      cases h
      exact ⟨mmu.page, rfl⟩

/-- On a map of one free entry the memory of the mmu starts there too. -/
theorem starts_of_free {n first needed free : Nat} {page : Page} :
    ∀ entry ∈ [(⟨0x100000, n, 1⟩ : Page.MmapEntry)] ++
      [Reservation.entry ⟨first, needed, free, page⟩], entry.type = nonFree →
      Starts (regionsOf ([⟨0x100000, n, 1⟩] ++ [Reservation.entry ⟨first, needed, free, page⟩]))
        entry := by
  intro entry hentry htype
  simp only [List.cons_append, List.nil_append, List.mem_cons, List.not_mem_nil, or_false] at hentry
  rcases hentry with rfl | rfl
  · exact absurd htype (show 1 ≠ nonFree by decide)
  · exact absurd htype (show 122 ≠ nonFree by decide)

theorem bootstrap_fits_1024_frames :
    0 < wordSize ∧ pageSize ≤ 4096 ∧
    ∃ done, bootstrap 0 0 (appendAll (Bootinfo.create ⟨fun _ => 0, []⟩) (freeFrames 1024)).1 4096
      = some (.ok done) ∧ done.Fits := by
  refine ⟨by decide, le_rfl, ?_⟩
  obtain ⟨r, hr, hall⟩ := bootstrap_fits_iff ⟨fun _ => 0, []⟩ (freeFrames 1024) 0
    (show 0 < wordSize by decide) (le_refl 4096)
  have hes : (appendAll (Bootinfo.create ⟨fun _ => 0, []⟩) (freeFrames 1024)).2.filterMap
      Record.mmapEntry = [⟨0x100000, 0x400000, 1⟩] := by decide +kernel
  have hplaces : (mmuCreate (appendAll (Bootinfo.create ⟨fun _ => 0, []⟩) (freeFrames 1024)).1
      (add32 (sizeFor [⟨0x100000, 0x400000, 1⟩]) initialHeapSize) 4096).map Reservation.places
      = some (some (0x100000, 0x69000, 0x147000)) := by decide +kernel
  rw [hes] at hr hall
  rw [hr, Option.map_some, Option.some_inj] at hplaces
  obtain ⟨page, rfl⟩ := Reservation.of_places hplaces
  have hlands : Lands [⟨0x100000, 0x400000, 1⟩] ⟨0x100000, 0x69000, 0x147000, page⟩ :=
    (by decide +kernel : address + pageSize ≤ 0x100000 ∧ 0x100000 ≤ 0x147000 ∧
      0x147000 + clientSize + recordsSize (regionsOf ([⟨0x100000, 0x400000, 1⟩] ++
        [⟨0x100000, 0x69000, 122⟩])) < wordSize)
  obtain ⟨done, hrun, -, -, hiff⟩ := hall _ rfl hlands starts_of_free
  have hroom : RoomFor [⟨0x100000, 0x400000, 1⟩] 0x69000 := by
    rw [RoomFor]
    decide +kernel
  exact ⟨done, hrun, hiff.mpr hroom⟩

/-- With 1005 free frames the size that is asked for is a page to the byte, and the region
of the mmu is written behind it. -/
theorem bootstrap_overflows_1005_frames :
    ∃ done, bootstrap 0 0 (appendAll (Bootinfo.create ⟨fun _ => 0, []⟩) (freeFrames 1005)).1 4096
      = some (.ok done) ∧ ¬ done.Fits := by
  have h := appendAll_holds (create_holds ⟨fun _ => 0, []⟩) (freeFrames 1005)
  have hes : (appendAll (Bootinfo.create ⟨fun _ => 0, []⟩) (freeFrames 1005)).2.filterMap
      Record.mmapEntry = [⟨0x100000, 0x3ed000, 1⟩] := by decide +kernel
  have hplaces : (mmuCreate (appendAll (Bootinfo.create ⟨fun _ => 0, []⟩) (freeFrames 1005)).1
      (add32 (sizeFor [⟨0x100000, 0x3ed000, 1⟩]) initialHeapSize) 4096).map Reservation.places
      = some (some (0x100000, 0x68000, 0x147000)) := by decide +kernel
  obtain ⟨r, hr, hr'⟩ := Option.map_eq_some_iff.mp hplaces
  obtain ⟨page, rfl⟩ := Reservation.of_places hr'
  have hlands : Lands [⟨0x100000, 0x3ed000, 1⟩] ⟨0x100000, 0x68000, 0x147000, page⟩ :=
    (by decide +kernel : address + pageSize ≤ 0x100000 ∧ 0x100000 ≤ 0x147000 ∧
      0x147000 + clientSize + recordsSize (regionsOf ([⟨0x100000, 0x3ed000, 1⟩] ++
        [⟨0x100000, 0x68000, 122⟩])) < wordSize)
  rw [List.nil_append] at h
  rw [← hes] at hr hlands
  obtain ⟨done, hrun, -, -, hiff⟩ := bootstrap_of_mmu 0 h (le_refl 4096)
    (show 0 < wordSize by decide) hr hlands (by rw [hes]; exact starts_of_free)
  have hroom : ¬ RoomFor [⟨0x100000, 0x3ed000, 1⟩] 0x68000 := by
    rw [RoomFor]
    decide +kernel
  rw [hes] at hiff
  exact ⟨done, hrun, fun hfits => hroom (hiff.mp hfits)⟩

end Metta.RootDomain
