/-
  Metta.FramesMod.InMemory — where `frames_module_v1_create` puts its records.

  `Metta.FramesMod.Def` has the region records as values.  Here they are in
  memory: the client record at the address that is given, and behind it, one
  after the other, the region records, each followed by its frame counters.
  The store log of the memory says which bytes are written.

    • `requiredSize`, `createAt` — the two calls of the bootstrap,
    • `Regions` — region records in memory,
    • `createAt_stores` — what is written, and that it is what `create` says.
-/
import Metta.Bootinfo.UseMemory
import Metta.FramesMod.Run

namespace Metta.FramesMod

open Metta.Machine Memory
open Metta.Bootinfo (Page)

/-! ## §1. The calls. -/

/-- The number of `mmap_entry_t::non_free`. -/
def nonFree : Nat := 99

/-- The type that a type number stands for. -/
def EntryType.ofNat : Nat → EntryType
  | 1 => .free
  | 2 => .reserved
  | 3 => .acpiReclaimable
  | 4 => .acpiNvs
  | 5 => .badMemory
  | 6 => .disabled
  | 66 => .framebuffer
  | 76 => .loaderReclaimable
  | 77 => .loadedModule
  | 88 => .infoPage
  | 99 => .nonFree
  | 111 => .bootinfo
  | 122 => .systemData
  | type => .other type

/-- An entry of the boot info page. -/
def entryOf (e : Page.MmapEntry) : MmapEntry := ⟨e.baseAddr, e.length, .ofNat e.type⟩

/-- `sizeof(frame_allocator_v1::closure_t)`. -/
def closureSize : Nat := 8

/-- `sizeof(frame_allocator_v1::state_t)`. -/
def clientSize : Nat := 40

/-- `sizeof(frames_module_v1::state_t)`. -/
def regionSize : Nat := 28

/-- `page_align_up`. -/
def pageAlignUp (addr : Nat) : Nat := sub32 (add32 addr 4096) 1 &&& (wordSize - 4096)

/-- The number of regions and of frames that `required_size` counts. -/
def countFrames (es : List Page.MmapEntry) : Nat × Nat :=
  es.foldl (fun n e =>
    if e.type = nonFree then n else (add32 n.1 1, add32 n.2 (e.length / 2 ^ frameWidth))) (0, 0)

/-- The size for the entries of a map. -/
def sizeFor (es : List Page.MmapEntry) : Nat :=
  let n := countFrames es
  pageAlignUp (add32 (add32 (closureSize + clientSize) (n.1 * regionSize)) (n.2 * 4))

/-- `frames_module_v1_required_size`. -/
def requiredSize (b : Page) (fuel : Nat) : Option Nat := (b.mmapEntries fuel).map sizeFor

/-- The client record of the system. -/
def initClient (methods client : Nat) (m : Memory) : Memory :=
  let m := m.store32 client methods
  let m := m.store32 (add32 client 4) client
  let m := m.store32 (add32 client 20) ownerSystem
  let m := m.store32 (add32 client 16) 0
  let m := m.store32 (add32 client 24) 0xffffffff
  let m := m.store32 (add32 client 28) 0xffffffff
  let m := m.store32 (add32 client 32) 0
  m.store32 (add32 client 36) (add32 client clientSize)

/-- The loop over the frames of a region, `k` of them from `j` on. -/
def fillFrames (frames n : Nat) : Nat → Nat → Memory → Memory
  | 0, _, m => m
  | k + 1, j, m => fillFrames frames n k (j + 1) (m.store32 (add32 frames (4 * j)) (n - j))

/-- `running_state->frames`. -/
def framesOf (region : Nat) : Nat := add32 region regionSize

/-- The region record of an entry, and where the next one goes. -/
def initRegion (rtab region : Nat) (e : Page.MmapEntry) (m : Memory) : Memory × Nat :=
  let n := physFrameNumber (e.length % wordSize)
  let ram := (entryOf e).type.isRam
  let next := add32 (framesOf region) (4 * n)
  let m := m.store32 region (e.baseAddr % wordSize)
  let m := m.store32 (add32 region 4) n
  let m := m.store32 (add32 region 8) frameWidth
  let m := m.store32 (add32 region 12) (if ram then 0 else 2)
  let m := m.store32 (add32 region 16) (if ram then rtab else 0)
  let m := m.store32 (add32 region 24) (framesOf region)
  let m := fillFrames (framesOf region) n n 0 m
  (m.store32 (add32 region 20) next, next)

/-- The first pass of `create`; it keeps the last region record. -/
def initRegions (rtab : Nat) : List Page.MmapEntry → Nat → Nat → Memory → Memory × Nat
  | [], _, last, m => (m, last)
  | e :: es, running, last, m =>
      if e.type = nonFree then initRegions rtab es running last m
      else
        let next := initRegion rtab running e m
        initRegions rtab es next.2 running next.1

/-- `get_region`; `none` when the list does not come to its end. -/
def getRegionAt (m : Memory) (addr : Nat) : Nat → Nat → Option (Option Nat)
  | 0, _ => none
  | fuel + 1, ret =>
      if ret = 0 then some none
      else if addr ≥ m.load32 ret ∧
          addr < add32 (m.load32 ret)
            (shl32 (m.load32 (add32 ret 4)) (m.load32 (add32 ret 8))) then some (some ret)
      else getRegionAt m addr fuel (m.load32 (add32 ret 20))

/-- The counter of frame `i`. -/
def freeAt (m : Memory) (frames i : Nat) : Nat := m.load32 (add32 frames (4 * i))

/-- `alloc_range`: the frame counters of the region, the first frame and the number of
frames. -/
def allocRangeAt (m : Memory) (state nPhysicalFrames start fuel : Nat) :
    Except Fault (Nat × Nat × Nat) :=
  match getRegionAt m start fuel state with
  | none => .error .endless
  | some none => .error (.panic "frames_mod")
  | some (some region) =>
      let width := m.load32 (add32 region 8)
      let frames := m.load32 (add32 region 24)
      let fshift := sub32 width frameWidth
      let nLogFrames := shr32 (alignToFrameWidth nPhysicalFrames fshift) fshift
      let first := bytesToLogFrames (sub32 start (m.load32 region)) width
      let free := freeAt m frames first
      .ok (frames, first, if free < nLogFrames then free else nLogFrames)

/-- The loop of `alloc_update_free_predecessors`, going down from `i`. -/
def subtractPredecessorsAt (frames startFree : Nat) : Nat → Memory → Memory
  | 0, m => m
  | i + 1, m =>
      if freeAt m frames i = 0 then m
      else subtractPredecessorsAt frames startFree i
        (m.store32 (add32 frames (4 * i)) (sub32 (freeAt m frames i) startFree))

/-- The first loop of `mark_frames_used`, over `k` frames.  The second loop is made of
calls to the ramtab, which has its memory in the record of the mmu. -/
def clearFramesAt (frames : Nat) : Nat → Nat → Memory → Memory
  | 0, _, m => m
  | k + 1, j, m => clearFramesAt frames k (j + 1) (m.store32 (add32 frames (4 * j)) 0)

/-- The second pass of `create`, for a `non_free` entry. -/
def reserveEntryAt (client fuel : Nat) (e : Page.MmapEntry) (m : Memory) : Except Fault Memory :=
  let state := m.load32 (add32 client 36)
  match allocRangeAt m state (sizeInWholeFrames e.length frameWidth % wordSize)
      (e.baseAddr % wordSize) fuel with
  | .error fault => .error fault
  | .ok (frames, first, n) =>
      if n = 0 then .error (.panic "Already allocated range deemed unavailable!")
      else
        let m := subtractPredecessorsAt frames (freeAt m frames first) first m
        let m := clearFramesAt frames (add32 first n - first) first m
        .ok (m.store32 (add32 client 16) (add32 (m.load32 (add32 client 16)) n))

/-- The second pass of `create`, up to its end or to a `PANIC`. -/
def reserveEntriesAt (client fuel : Nat) :
    List Page.MmapEntry → Memory → Memory × Except Fault Unit
  | [], m => (m, .ok ())
  | e :: es, m =>
      if e.type ≠ nonFree then reserveEntriesAt client fuel es m
      else
        match reserveEntryAt client fuel e m with
        | .error fault => (m, .error fault)
        | .ok m => reserveEntriesAt client fuel es m

/-- `frames_module_v1_create`: the page and how the call ended.  Both passes read the
memory map from the boot info page. -/
def createAt (methods rtab whereToStart fuel : Nat) (b : Page) :
    Option (Page × Except Fault Unit) := do
  let m := initClient methods whereToStart b.mem
  let state := add32 whereToStart clientSize
  let es ← Page.mmapEntries { b with mem := m } fuel
  let (m, last) := initRegions rtab es state state m
  let m := m.store32 (add32 last 20) 0
  let es ← Page.mmapEntries { b with mem := m } fuel
  let (m, ended) := reserveEntriesAt whereToStart fuel es m
  return ({ b with mem := m }, ended)

/-! ## §2. The loops over frame counters. -/

/-- Stores from `lo` on that end before `hi`. -/
def Between (lo hi a : Nat) : Prop := lo ≤ a ∧ a + 4 ≤ hi

/-- The counters that follow a region record. -/
def counters (m : Memory) (frames : Nat) : Nat → Nat := fun i => m.load32 (frames + 4 * i)

theorem counters_store (m : Memory) (frames i : Nat) {v : Nat} (hv : v < wordSize) :
    counters (m.store32 (frames + 4 * i) v) frames = Function.update (counters m frames) i v := by
  funext x
  by_cases hx : x = i
  · rw [hx, Function.update_self, counters, load32_store32_same _ _ _ hv]
  · rw [Function.update_of_ne hx, counters, load32_store32_ne _ _ _ _ (by omega), counters]

theorem freeAt_eq (m : Memory) {frames i : Nat} (h : frames + 4 * i < wordSize) :
    freeAt m frames i = counters m frames i := by
  rw [freeAt, add32_eq h, counters]

theorem fillFrames_spec {frames n k j : Nat} (m : Memory) (h : frames + 4 * (j + k) ≤ wordSize)
    (hn : n < wordSize) :
    Stored (Between (frames + 4 * j) (frames + 4 * (j + k))) m (fillFrames frames n k j m) ∧
    ∀ i, j ≤ i → i < j + k → counters (fillFrames frames n k j m) frames i = n - i := by
  induction k generalizing j m with
  | zero => exact ⟨.refl _ _, fun i h1 h2 => by omega⟩
  | succ k ih =>
      rw [fillFrames, add32_eq (by omega)]
      have hroom : frames + 4 * (j + 1 + k) ≤ wordSize := by omega
      obtain ⟨hstored, hvalue⟩ := ih (m.store32 (frames + 4 * j) (n - j)) hroom
      constructor
      · refine ((Stored.refl _ m).store _ ⟨le_rfl, by omega⟩).trans (hstored.mono ?_)
        rintro a ⟨h1, h2⟩
        exact ⟨by omega, by omega⟩
      · intro i h1 h2
        by_cases hi : i = j
        · -- the later stores are behind this counter
          have hkeep : counters (fillFrames frames n k (j + 1) (m.store32 (frames + 4 * j) (n - j)))
              frames j = counters (m.store32 (frames + 4 * j) (n - j)) frames j := by
            exact load32_congr fun x hx hx' => hstored.byte_eq fun a ha => .inl (by
              have := ha.1
              omega)
          rw [hi, hkeep, counters_store _ _ _ (by omega), Function.update_self]
        · exact hvalue i (by omega) (by omega)

/-- The last counter is written. -/
theorem fillFrames_storedAt {frames n k j : Nat} (m : Memory)
    (h : frames + 4 * (j + (k + 1)) ≤ wordSize) :
    StoredAt (frames + 4 * (j + k)) m (fillFrames frames n (k + 1) j m) := by
  induction k generalizing j m with
  | zero =>
      rw [fillFrames, add32_eq (by omega)]
      exact storedAt_store _ _ _
  | succ k ih =>
      rw [fillFrames, add32_eq (by omega)]
      have hroom : frames + 4 * (j + 1 + (k + 1)) ≤ wordSize := by omega
      have hlast := (ih (m.store32 (frames + 4 * j) (n - j)) hroom).before
        ((Stored.refl (fun _ => True) m).store (n - j) trivial)
      rwa [show j + 1 + k = j + (k + 1) by omega] at hlast

theorem subtractPredecessorsAt_spec {frames d i : Nat} (m : Memory)
    (h : frames + 4 * i ≤ wordSize) :
    Stored (Between frames (frames + 4 * i)) m (subtractPredecessorsAt frames d i m) ∧
    counters (subtractPredecessorsAt frames d i m) frames
      = subtractPredecessors d i (counters m frames) := by
  induction i generalizing m with
  | zero => exact ⟨.refl _ _, rfl⟩
  | succ i ih =>
      rw [subtractPredecessorsAt, freeAt_eq m (by omega), subtractPredecessors]
      split
      next => exact ⟨.refl _ _, rfl⟩
      next =>
        rw [add32_eq (by omega)]
        obtain ⟨hstored, hvalue⟩ :=
          ih (m.store32 (frames + 4 * i) (sub32 (counters m frames i) d)) (by omega)
        constructor
        · refine ((Stored.refl _ m).store _ ⟨by omega, by omega⟩).trans (hstored.mono ?_)
          rintro a ⟨h1, h2⟩
          exact ⟨h1, by omega⟩
        · rw [hvalue, counters_store _ _ _ (sub32_lt _ _)]

theorem clearFramesAt_spec {frames k j : Nat} (m : Memory) (h : frames + 4 * (j + k) ≤ wordSize) :
    Stored (Between (frames + 4 * j) (frames + 4 * (j + k))) m (clearFramesAt frames k j m) ∧
    counters (clearFramesAt frames k j m) frames = clearFrames k j (counters m frames) := by
  induction k generalizing j m with
  | zero => exact ⟨.refl _ _, rfl⟩
  | succ k ih =>
      rw [clearFramesAt, add32_eq (by omega), clearFrames]
      have hroom : frames + 4 * (j + 1 + k) ≤ wordSize := by omega
      obtain ⟨hstored, hvalue⟩ := ih (m.store32 (frames + 4 * j) 0) hroom
      constructor
      · refine ((Stored.refl _ m).store _ ⟨le_rfl, by omega⟩).trans (hstored.mono ?_)
        rintro a ⟨h1, h2⟩
        exact ⟨by omega, by omega⟩
      · rw [hvalue, counters_store _ _ _ (by decide)]

/-! ## §3. Region records in memory. -/

/-- The bytes of a region record and its counters. -/
def Region.recordSize (r : Region) : Nat := regionSize + 4 * r.nLogicalFrames

/-- The region record `r` is at `a`, but for its link. -/
structure RegionAt (rtab : Nat) (m : Memory) (a : Nat) (r : Region) : Prop where
  start : m.load32 a = r.start
  frameCount : m.load32 (a + 4) = r.nLogicalFrames
  width : m.load32 (a + 8) = r.frameWidth
  attrs : m.load32 (a + 12) = if r.attrs = .regular then 0 else 2
  ramtab : m.load32 (a + 16) = if r.ramtab then rtab else 0
  frames : m.load32 (a + 24) = a + 28
  counters : ∀ i < r.nLogicalFrames, counters m (a + 28) i = r.frames i

/-- The region records `rs` are from `a` to `e`, each linked to the next; the link of the
last one is `last`. -/
def Regions (rtab : Nat) (m : Memory) (last : Nat) : Nat → List Region → Nat → Prop
  | a, [], e => a = e
  | a, r :: rs, e =>
      RegionAt rtab m a r ∧ m.load32 (a + 20) = (if rs = [] then last else a + r.recordSize) ∧
        Regions rtab m last (a + r.recordSize) rs e

variable {rtab last a e : Nat} {m m' : Memory} {r : Region} {rs : List Region}

/-- The link of a record is not among what `RegionAt` reads. -/
theorem RegionAt.congr (h : RegionAt rtab m a r)
    (hsame : ∀ x, a ≤ x → x < a + r.recordSize → x < a + 20 ∨ a + 24 ≤ x →
      m'.byte x = m.byte x) : RegionAt rtab m' a r := by
  have hword : ∀ i, i + 4 ≤ r.recordSize → i + 4 ≤ 20 ∨ 24 ≤ i →
      m'.load32 (a + i) = m.load32 (a + i) := fun i hi hlink =>
    load32_congr fun x h1 h2 => hsame x (by omega) (by omega) (by omega)
  simp only [Region.recordSize, regionSize] at hword
  refine ⟨?_, ?_, ?_, ?_, ?_, ?_, ?_⟩
  · exact (hword 0 (by omega) (by omega)).trans h.start
  · exact (hword 4 (by omega) (by omega)).trans h.frameCount
  · exact (hword 8 (by omega) (by omega)).trans h.width
  · exact (hword 12 (by omega) (by omega)).trans h.attrs
  · exact (hword 16 (by omega) (by omega)).trans h.ramtab
  · exact (hword 24 (by omega) (by omega)).trans h.frames
  · intro i hi
    refine Eq.trans ?_ (h.counters i hi)
    rw [FramesMod.counters, FramesMod.counters, Nat.add_assoc]
    exact hword (28 + 4 * i) (by omega) (by omega)

theorem Regions.le (h : Regions rtab m last a rs e) : a ≤ e := by
  induction rs generalizing a with
  | nil => exact le_of_eq h
  | cons r rs ih => exact le_trans (Nat.le_add_right _ _) (ih h.2.2)

theorem Regions.congr (h : Regions rtab m last a rs e)
    (hsame : ∀ x, a ≤ x → x < e → m'.byte x = m.byte x) : Regions rtab m' last a rs e := by
  induction rs generalizing a with
  | nil => exact h
  | cons r rs ih =>
      obtain ⟨hr, hlink, hrest⟩ := h
      have hle := hrest.le
      have hmin : regionSize ≤ r.recordSize := Nat.le_add_right _ _
      simp only [regionSize] at hmin
      refine ⟨hr.congr fun x h1 h2 _ => hsame x h1 (by omega), ?_,
        ih hrest fun x h1 h2 => hsame x (by omega) h2⟩
      rw [← hlink]
      exact load32_congr fun x h1 h2 => hsame x (by omega) (by omega)

/-- The record that `create` writes for an entry. -/
theorem initRegion_spec (hrtab : rtab < wordSize) (entry : Page.MmapEntry)
    (hroom : a + (mkRegion (entryOf entry)).recordSize < wordSize) (m : Memory) :
    let r := mkRegion (entryOf entry)
    let out := initRegion rtab a entry m
    Stored (Between a (a + r.recordSize)) m out.1 ∧ RegionAt rtab out.1 a r ∧
      out.1.load32 (a + 20) = a + r.recordSize ∧ out.2 = a + r.recordSize ∧
      StoredAt (a + r.recordSize - 4) m out.1 := by
  intro r out
  obtain ⟨n, hn⟩ : ∃ n, n = physFrameNumber (entry.length % wordSize) := ⟨_, rfl⟩
  have hcount : r.nLogicalFrames = n := hn.symm
  have hsize : r.recordSize = 28 + 4 * n := by rw [Region.recordSize, hcount, regionSize]
  have hlt : a + (28 + 4 * n) < wordSize := hsize ▸ hroom
  have hnword : n < wordSize := by omega
  have hframes : framesOf a = a + 28 := add32_eq (by simp only [regionSize]; omega)
  have hnext : add32 (framesOf a) (4 * n) = a + (28 + 4 * n) := by
    rw [hframes, add32_eq (by omega)]
    omega
  obtain ⟨m1, hm1⟩ : ∃ m1, m1 = (((((m.store32 a (entry.baseAddr % wordSize)).store32 (a + 4) n
      ).store32 (a + 8) frameWidth).store32 (a + 12) (if (entryOf entry).type.isRam then 0 else 2)
      ).store32 (a + 16) (if (entryOf entry).type.isRam then rtab else 0)).store32 (a + 24) (a + 28)
    := ⟨_, rfl⟩
  have hend : a + 28 + 4 * (0 + n) ≤ wordSize := by omega
  obtain ⟨hfill, hvalue⟩ := fillFrames_spec m1 hend hnword
  have hout : out = ((fillFrames (a + 28) n n 0 m1).store32 (a + 20) (a + (28 + 4 * n)),
      a + (28 + 4 * n)) := by
    simp only [out, initRegion, ← hn, hnext]
    rw [hframes, add32_eq (by omega), add32_eq (by omega), add32_eq (by omega),
      add32_eq (by omega), add32_eq (by omega), add32_eq (by omega), hm1]
  rw [hout, hsize]
  have hheader : Stored (Between a (a + (28 + 4 * n))) m m1 := by
    rw [hm1]
    refine (((((((Stored.refl _ m).store _ ?_).store _ ?_).store _ ?_).store _ ?_).store _ ?_
      ).store _ ?_)
    all_goals exact ⟨by omega, by omega⟩
  -- a word of the header is not touched by the loop nor by the link
  have hword : ∀ i, i + 4 ≤ 20 ∨ i = 24 →
      ((fillFrames (a + 28) n n 0 m1).store32 (a + 20) (a + (28 + 4 * n))).load32 (a + i)
        = m1.load32 (a + i) := by
    intro i hi
    rw [load32_store32_ne _ _ _ _ (by omega)]
    refine load32_congr fun x h1 h2 => hfill.byte_eq fun y hy => .inl ?_
    have := hy.1
    omega
  refine ⟨?_, ⟨?_, ?_, ?_, ?_, ?_, ?_, ?_⟩, load32_store32_same _ _ _ hlt, rfl, ?_⟩
  · refine (hheader.trans (hfill.mono ?_)).store _ ⟨by omega, by omega⟩
    rintro y ⟨h1, h2⟩
    exact ⟨by omega, by omega⟩
  · refine (hword 0 (by omega)).trans ?_
    show m1.load32 a = _
    rw [hm1, load32_store32_ne _ _ _ _ (by omega),
      load32_store32_ne _ _ _ _ (by omega), load32_store32_ne _ _ _ _ (by omega),
      load32_store32_ne _ _ _ _ (by omega), load32_store32_ne _ _ _ _ (by omega),
      load32_store32_same _ _ _ (Nat.mod_lt _ (by decide))]
    rfl
  · rw [hword 4 (by omega), hm1, load32_store32_ne _ _ _ _ (by omega),
      load32_store32_ne _ _ _ _ (by omega), load32_store32_ne _ _ _ _ (by omega),
      load32_store32_ne _ _ _ _ (by omega), load32_store32_same _ _ _ hnword, hcount]
  · rw [hword 8 (by omega), hm1, load32_store32_ne _ _ _ _ (by omega),
      load32_store32_ne _ _ _ _ (by omega), load32_store32_ne _ _ _ _ (by omega),
      load32_store32_same _ _ _ (by decide)]
    rfl
  · rw [hword 12 (by omega), hm1, load32_store32_ne _ _ _ _ (by omega),
      load32_store32_ne _ _ _ _ (by omega),
      load32_store32_same _ _ _ (by split <;> decide)]
    simp only [r, mkRegion]
    cases (entryOf entry).type.isRam <;> rfl
  · rw [hword 16 (by omega), hm1, load32_store32_ne _ _ _ _ (by omega),
      load32_store32_same _ _ _ (by split <;> [exact hrtab; decide])]
    rfl
  · rw [hword 24 (by omega), hm1, load32_store32_same _ _ _ (by omega)]
  · intro i hi
    rw [hcount] at hi
    have := hvalue i (Nat.zero_le _) (by omega)
    rw [counters] at this ⊢
    rw [load32_store32_ne _ _ _ _ (by omega), this, hn]
    rfl
  · -- the last word is the last counter, or the pointer to the counters when there is none
    refine StoredAt.after ?_ ((Stored.refl (fun _ => True) _).store _ trivial)
    cases n with
    | zero =>
        rw [hm1]
        exact (storedAt_store _ (a + 24) _).before
          (((((Stored.refl (fun _ => True) m).store _ trivial).store _ trivial).store _ trivial
            ).store _ trivial |>.store _ trivial)
    | succ k =>
        have hlast := (fillFrames_storedAt (n := k + 1) m1 hend).before hheader
        rwa [show a + 28 + 4 * (0 + k) = a + (28 + 4 * (k + 1)) - 4 by omega] at hlast

/-- The regions of a map. -/
def regionsOf (es : List Page.MmapEntry) : List Region :=
  ((es.map entryOf).filter fun e => e.type ≠ .nonFree).map mkRegion

/-- The bytes of region records. -/
def recordsSize (rs : List Region) : Nat := (rs.map Region.recordSize).sum

/-- Where the last of the records from `a` on is, or `last` when there is none. -/
def lastAt : Nat → Nat → List Region → Nat
  | last, _, [] => last
  | _, a, r :: rs => lastAt a (a + r.recordSize) rs

theorem ofNat_eq_nonFree (type : Nat) : EntryType.ofNat type = .nonFree ↔ type = nonFree := by
  unfold EntryType.ofNat nonFree
  split <;> simp_all

theorem regionsOf_cons (entry : Page.MmapEntry) (es : List Page.MmapEntry) :
    regionsOf (entry :: es)
      = if entry.type = nonFree then regionsOf es
        else mkRegion (entryOf entry) :: regionsOf es := by
  have hiff := ofNat_eq_nonFree entry.type
  by_cases h : entry.type = nonFree
  · rw [if_pos h, regionsOf, List.map_cons, List.filter_cons_of_neg (by simpa [entryOf, hiff] using h)]
    rfl
  · rw [if_neg h, regionsOf, List.map_cons, List.filter_cons_of_pos (by simpa [entryOf, hiff] using h)]
    rfl

theorem recordsSize_cons (r : Region) (rs : List Region) :
    recordsSize (r :: rs) = r.recordSize + recordsSize rs := rfl

/-- **The first pass** writes the records one behind the other. -/
theorem initRegions_spec (hrtab : rtab < wordSize) (es : List Page.MmapEntry) (last : Nat)
    (m : Memory) (hroom : a + recordsSize (regionsOf es) < wordSize) :
    let e := a + recordsSize (regionsOf es)
    let out := initRegions rtab es a last m
    Stored (Between a e) m out.1 ∧ Regions rtab out.1 e a (regionsOf es) e ∧
      out.2 = lastAt last a (regionsOf es) ∧ (regionsOf es ≠ [] → StoredAt (e - 4) m out.1) := by
  induction es generalizing a last m with
  | nil => exact ⟨.refl _ _, rfl, rfl, fun h => absurd rfl h⟩
  | cons entry es ih =>
      rw [initRegions]
      by_cases htype : entry.type = nonFree
      · rw [regionsOf_cons, if_pos htype] at hroom ⊢
        rw [if_pos htype]
        exact ih last m hroom
      · rw [regionsOf_cons, if_neg htype, recordsSize_cons, ← Nat.add_assoc] at hroom ⊢
        rw [if_neg htype]
        obtain ⟨hstored, hat, hlink, hnext, hend⟩ := initRegion_spec hrtab entry
          (show a + (mkRegion (entryOf entry)).recordSize < wordSize by omega) m
        obtain ⟨hstored', hrest, hlast, hend'⟩ := ih a (initRegion rtab a entry m).1 hroom
        rw [← hnext] at hstored' hrest hlast hend'
        have hbehind : ∀ x < a + (mkRegion (entryOf entry)).recordSize,
            (initRegions rtab es (initRegion rtab a entry m).2 a
              (initRegion rtab a entry m).1).1.byte x = (initRegion rtab a entry m).1.byte x := by
          intro x hx
          refine hstored'.byte_eq fun y hy => .inl ?_
          have := hy.1
          omega
        refine ⟨?_, ⟨hat.congr fun x _ hx _ => hbehind x hx, ?_, hnext ▸ hrest⟩, ?_, ?_⟩
        · refine (hstored.mono ?_).trans (hstored'.mono ?_)
          · rintro y ⟨h1, h2⟩
            exact ⟨h1, by omega⟩
          · rintro y ⟨h1, h2⟩
            exact ⟨by omega, by omega⟩
        · have hmin : regionSize ≤ (mkRegion (entryOf entry)).recordSize := Nat.le_add_right _ _
          simp only [regionSize] at hmin
          rw [load32_congr fun x h1 h2 => hbehind x (by omega), hlink]
          -- the link of the last record is the end of all records
          split
          next hnil => rw [hnil]; rfl
          next => rfl
        · rw [hlast, hnext]
          rfl
        · intro _
          by_cases hnil : regionsOf es = []
          · have hmine := hend.after hstored'
            rwa [hnil]
          · rw [← hnext]
            exact (hend' hnil).before hstored

theorem le_lastAt (last a : Nat) (r : Region) (rs : List Region) : a ≤ lastAt last a (r :: rs) := by
  induction rs generalizing last a r with
  | nil => exact le_rfl
  | cons r' rs ih => exact le_trans (Nat.le_add_right _ _) (ih a (a + r.recordSize) r')

theorem lastAt_le (last a : Nat) (r : Region) (rs : List Region) :
    lastAt last a (r :: rs) + regionSize ≤ a + recordsSize (r :: rs) := by
  induction rs generalizing last a r with
  | nil => exact Nat.add_le_add_left (Nat.le_add_right _ _) _
  | cons r' rs ih =>
      have := ih a (a + r.recordSize) r'
      rw [recordsSize_cons, ← Nat.add_assoc]
      exact this

/-- The last link is set when the first pass is over. -/
theorem Regions.relink (h : Regions rtab m last a (r :: rs) e) {v : Nat} (hv : v < wordSize)
    (before : Nat) :
    Regions rtab (m.store32 (lastAt before a (r :: rs) + 20) v) v a (r :: rs) e := by
  induction rs generalizing a r before with
  | nil =>
      obtain ⟨hr, -, he⟩ := h
      refine ⟨hr.congr fun x _ _ hx => byte_store32_ne _ _ _ _ ?_, ?_, he⟩
      · simp only [lastAt]
        omega
      · exact load32_store32_same _ _ _ hv
  | cons r' rs ih =>
      obtain ⟨hr, hlink, hrest⟩ := h
      have hmin : regionSize ≤ r.recordSize := Nat.le_add_right _ _
      simp only [regionSize] at hmin
      have hbehind := ih hrest a
      have hplace := le_lastAt a (a + r.recordSize) r' rs
      have hkeep : ∀ x < a + r.recordSize,
          (m.store32 (lastAt a (a + r.recordSize) (r' :: rs) + 20) v).byte x = m.byte x :=
        fun x hx => byte_store32_ne _ _ _ _ (by omega)
      refine ⟨hr.congr fun x _ hx _ => hkeep x hx, ?_, hbehind⟩
      rw [if_neg (by simp)] at hlink ⊢
      rw [← hlink]
      exact load32_congr fun x h1 h2 => hkeep x (by omega)

/-! ## §4. The second pass. -/

/-- Where record number `i` is. -/
def placeOf : Nat → List Region → Nat → Nat
  | a, r :: rs, i + 1 => placeOf (a + r.recordSize) rs i
  | a, _, _ => a

theorem Regions.at (h : Regions rtab m last a rs e) {i : Nat} (hi : rs[i]? = some r) :
    RegionAt rtab m (placeOf a rs i) r ∧ a ≤ placeOf a rs i ∧
      placeOf a rs i + r.recordSize ≤ e := by
  induction rs generalizing a i with
  | nil => cases hi
  | cons r' rs ih =>
      obtain ⟨hr', -, hrest⟩ := h
      cases i with
      | zero =>
          cases hi
          exact ⟨hr', le_rfl, hrest.le⟩
      | succ i =>
          obtain ⟨h1, h2, h3⟩ := ih hrest (i := i) hi
          exact ⟨h1, le_trans (Nat.le_add_right _ _) h2, h3⟩

/-- A change to the counters of one record leaves the others. -/
theorem Regions.set (h : Regions rtab m last a rs e) {i : Nat} {r' : Region}
    (hi : rs[i]? = some r) (hr' : RegionAt rtab m' (placeOf a rs i) r')
    (hcount : r'.nLogicalFrames = r.nLogicalFrames)
    (hsame : ∀ x, x < placeOf a rs i + 28 ∨ placeOf a rs i + r.recordSize ≤ x →
      m'.byte x = m.byte x) : Regions rtab m' last a (rs.set i r') e := by
  induction rs generalizing a i with
  | nil => cases hi
  | cons r₀ rs ih =>
      obtain ⟨hr₀, hlink, hrest⟩ := h
      have hmin : regionSize ≤ r₀.recordSize := Nat.le_add_right _ _
      simp only [regionSize] at hmin
      cases i with
      | zero =>
          cases hi
          have hsize : r'.recordSize = r.recordSize := by
            rw [Region.recordSize, Region.recordSize, hcount]
          refine ⟨hr', ?_, ?_⟩
          · rw [hsize, ← hlink]
            refine load32_congr fun x h1 h2 => hsame x (.inl ?_)
            simp only [placeOf]
            omega
          · rw [hsize]
            exact hrest.congr fun x h1 _ => hsame x (.inr h1)
      | succ i =>
          have hplace := (hrest.at (i := i) hi).2.1
          have hkeep : ∀ x < a + r₀.recordSize, m'.byte x = m.byte x := fun x hx =>
            hsame x (.inl (by simp only [placeOf]; omega))
          refine ⟨hr₀.congr fun x _ hx _ => hkeep x hx, ?_, ih hrest (i := i) hi hr' hsame⟩
          have hne : (rs.set i r' = []) = (rs = []) := by simp
          simp only [hne]
          rw [← hlink]
          exact load32_congr fun x h1 h2 => hkeep x (by omega)

/-- `get_region` finds the record of the region that it finds among values. -/
theorem getRegionAt_eq (h : Regions rtab m 0 a rs e) (ha : 0 < a) (he : e < wordSize)
    (addr k : Nat) {fuel : Nat} (hfuel : rs.length < fuel) :
    getRegionAt m addr fuel (if rs = [] then 0 else a)
      = some ((getRegion addr rs k).map fun g => placeOf a rs (g.1 - k)) := by
  induction rs generalizing a k fuel with
  | nil =>
      obtain ⟨n, rfl⟩ : ∃ n, fuel = n + 1 := ⟨fuel - 1, by omega⟩
      rfl
  | cons r rs ih =>
      obtain ⟨n, rfl⟩ : ∃ n, fuel = n + 1 := ⟨fuel - 1, by omega⟩
      obtain ⟨hr, hlink, hrest⟩ := h
      have hle := hrest.le
      have hmin : regionSize ≤ r.recordSize := Nat.le_add_right _ _
      simp only [regionSize] at hmin
      have h4 : add32 a 4 = a + 4 := add32_eq (by omega)
      have h8 : add32 a 8 = a + 8 := add32_eq (by omega)
      have h20 : add32 a 20 = a + 20 := add32_eq (by omega)
      rw [if_neg (by simp), getRegionAt, if_neg (by omega), h4, h8, h20, hr.start, hr.frameCount,
        hr.width, hlink, getRegion]
      by_cases hc : r.contains addr = true
      · have hin := hc
        simp only [Region.contains, Bool.and_eq_true, decide_eq_true_eq] at hin
        rw [if_pos hin, if_pos hc, Option.map_some, Nat.sub_self]
        rfl
      · have hout := hc
        simp only [Region.contains, Bool.and_eq_true, decide_eq_true_eq] at hout
        have hlen : rs.length < n := by simpa using hfuel
        rw [if_neg hout, if_neg hc, ih hrest (by omega) (k + 1) hlen]
        cases hget : getRegion addr rs (k + 1) with
        | none => rfl
        | some g =>
            obtain ⟨j, hj⟩ : ∃ j, g.1 = k + 1 + j :=
              ⟨g.1 - (k + 1), by have := (getRegion_spec hget).1; omega⟩
            simp only [Option.map_some, hj, Nat.add_sub_cancel_left,
              show k + 1 + j - k = j + 1 by omega]
            rfl

/-- The entry starts in a region with a frame of it from there on.  The address may be in
the last frame, and then it must be its start. -/
def Starts (rs : List Region) (entry : Page.MmapEntry) : Prop :=
  ∀ i r, getRegion (entry.baseAddr % wordSize) rs 0 = some (i, r) →
    bytesToLogFrames (sub32 (entry.baseAddr % wordSize) r.start) r.frameWidth < r.nLogicalFrames

theorem allocRangeAt_eq (h : Regions rtab m 0 a rs e) (ha : 0 < a) (he : e < wordSize)
    (hne : rs ≠ []) {n : Nat} {entry : Page.MmapEntry} (hstarts : Starts rs entry) {fuel : Nat}
    (hfuel : rs.length < fuel) :
    allocRangeAt m a n (entry.baseAddr % wordSize) fuel
      = (allocRange n (entry.baseAddr % wordSize) rs).map fun g =>
          (placeOf a rs g.region + 28, g.first, g.nFrames) := by
  have hfind := getRegionAt_eq h ha he (entry.baseAddr % wordSize) 0 hfuel
  rw [if_neg hne] at hfind
  rw [allocRangeAt, allocRange, hfind]
  cases hget : getRegion (entry.baseAddr % wordSize) rs 0 with
  | none => rfl
  | some g =>
      obtain ⟨i, r⟩ := g
      have hi := (getRegion_spec hget).2.1
      rw [Nat.sub_zero] at hi
      obtain ⟨hr, hge, hle⟩ := h.at hi
      have hfirst := hstarts i r hget
      have hmin : r.recordSize = 28 + 4 * r.nLogicalFrames := rfl
      simp only [Option.map_some, Nat.sub_zero]
      rw [add32_eq (by omega), add32_eq (by omega), hr.start, hr.width, hr.frames,
        freeAt_eq _ (by omega), hr.counters _ hfirst, Region.free, if_pos hfirst]
      rfl

/-- Taking frames reads the counters of the region only. -/
theorem takenFrames_congr {n first k x : Nat} {f f' : Nat → Nat} (hf : ∀ i < n, f i = f' i)
    (hfirst : first < n) (hx : x < n) : takenFrames first k f x = takenFrames first k f' x := by
  have hiff : (x < first ∧ ∀ i, x ≤ i → i < first → f i ≠ 0) ↔
      (x < first ∧ ∀ i, x ≤ i → i < first → f' i ≠ 0) := by
    refine and_congr_right fun _ => forall_congr' fun i => imp_congr_right fun _ =>
      imp_congr_right fun hi => ?_
    rw [hf i (by omega)]
  simp only [takenFrames, clearFrames_apply, subtractPredecessors_apply, hiff, hf first hfirst,
    hf x hx]

/-- The two loops over counters do to the record what `takeFrames` does to the region. -/
theorem takeAt_spec {s : State} {g : Found} (S : Sound s) (p : Picked s g r)
    (h : Regions rtab m last a s.regions e) (he : e < wordSize) (owner : Nat) :
    let frames := placeOf a s.regions g.region + 28
    let m' := clearFramesAt frames (add32 g.first g.nFrames - g.first) g.first
      (subtractPredecessorsAt frames (freeAt m frames g.first) g.first m)
    Stored (Between a e) m m' ∧ Regions rtab m' last a (s.taken owner g r).regions e := by
  intro frames m'
  obtain ⟨hr, hge, hle⟩ := h.at p.region
  have hin := p.inside S
  have hfirst := p.first
  have hmin : r.recordSize = 28 + 4 * r.nLogicalFrames := rfl
  have hlast : add32 g.first g.nFrames - g.first = g.nFrames := by
    rw [add32_eq (p.sum_lt S), Nat.add_sub_cancel_left]
  have hroom : frames + 4 * g.first ≤ wordSize := by
    simp only [frames]
    omega
  have hroom' : frames + 4 * (g.first + g.nFrames) ≤ wordSize := by
    simp only [frames]
    omega
  -- first the counters in front of the range, then the ones in it
  obtain ⟨hs1, hc1⟩ := subtractPredecessorsAt_spec (d := freeAt m frames g.first) m hroom
  obtain ⟨hs2, hc2⟩ := clearFramesAt_spec
    (subtractPredecessorsAt frames (freeAt m frames g.first) g.first m) hroom'
  have hstored : Stored (Between frames (frames + 4 * r.nLogicalFrames)) m m' := by
    simp only [m', hlast]
    refine (hs1.mono ?_).trans (hs2.mono ?_)
    · rintro y ⟨h1, h2⟩
      exact ⟨h1, by omega⟩
    · rintro y ⟨h1, h2⟩
      exact ⟨by omega, by omega⟩
  -- the counters of the region are all that is written
  have hkeep : ∀ x, x < frames ∨ frames + 4 * r.nLogicalFrames ≤ x → m'.byte x = m.byte x := by
    intro x hx
    refine hstored.byte_eq fun y hy => ?_
    have := hy.1
    have := hy.2
    omega
  have hcounters : counters m' frames = takenFrames g.first g.nFrames (counters m frames) := by
    simp only [m', hlast]
    rw [hc2, hc1, freeAt_eq m (by simp only [frames]; omega)]
    rfl
  refine ⟨hstored.mono ?_, ?_⟩
  · rintro y ⟨h1, h2⟩
    simp only [frames] at h1 h2
    exact ⟨by omega, by omega⟩
  · show Regions rtab m' last a (s.regions.set g.region
      { r with frames := takenFrames g.first g.nFrames r.frames }) e
    refine h.set p.region ?_ rfl fun x hx => hkeep x (by simp only [frames]; omega)
    -- the fields of the record are in front of its counters
    have hword : ∀ i, i + 4 ≤ 28 → m'.load32 (placeOf a s.regions g.region + i)
        = m.load32 (placeOf a s.regions g.region + i) := fun i hi =>
      load32_congr fun x h1 h2 => hkeep x (.inl (by simp only [frames]; omega))
    refine ⟨(hword 0 (by omega)).trans hr.start, (hword 4 (by omega)).trans hr.frameCount,
      (hword 8 (by omega)).trans hr.width, (hword 12 (by omega)).trans hr.attrs,
      (hword 16 (by omega)).trans hr.ramtab, (hword 24 (by omega)).trans hr.frames, ?_⟩
    intro i hi
    rw [hcounters]
    exact takenFrames_congr hr.counters p.first hi

/-- The memory holds the records of the state, behind the client record. -/
structure Mirrors (rtab client : Nat) (m : Memory) (s : State) (e : Nat) : Prop where
  regions : Regions rtab m 0 (client + clientSize) s.regions e
  state : m.load32 (client + 36) = client + clientSize
  some : s.regions ≠ []

theorem getRegion_shape (addr : Nat) (rs : List Region) (k : Nat) :
    getRegion addr (rs.map Region.shape) k
      = (getRegion addr rs k).map fun g => (g.1, g.2.shape) := by
  induction rs generalizing k with
  | nil => rfl
  | cons r rs ih =>
      rw [List.map_cons, getRegion, getRegion, ih]
      have hc : r.shape.contains addr = r.contains addr := rfl
      rw [hc]
      split <;> rfl

/-- Where entries start does not depend on the counters. -/
theorem Starts.of_shape {rs rs' : List Region} {entry : Page.MmapEntry} (h : Starts rs entry)
    (hshape : rs'.map Region.shape = rs.map Region.shape) : Starts rs' entry := by
  intro i r' hget
  have hmap := getRegion_shape (entry.baseAddr % wordSize) rs 0
  rw [← hshape, getRegion_shape, hget] at hmap
  obtain ⟨⟨j, r⟩, hr, hg⟩ := Option.map_eq_some_iff.mp hmap.symm
  obtain ⟨rfl, hr'⟩ := Prod.mk.inj hg
  have hlt := h j r hr
  have hshape' : r.shape = r'.shape := hr'
  have hw : r.shape.frameWidth = r'.shape.frameWidth := by rw [hshape']
  simp only [Region.shape] at hw
  obtain ⟨h1, h2, -⟩ := Region.shape_eq hr'
  rwa [h1, h2, hw] at hlt

variable {client fuel : Nat} {s : State}

/-- **A step of the second pass** writes to the client record and to the region records
only, and does to them what the model on values does to the state. -/
theorem reserveEntryAt_spec {entry : Page.MmapEntry} (S : Sound s)
    (hm : Mirrors rtab client m s e) (he : e < wordSize) (hfuel : s.regions.length < fuel)
    {system : Client} (hsys : s.clients[0]? = some system) (hstarts : Starts s.regions entry) :
    (∃ fault, reserveEntry (entryOf entry) s = .error fault ∧
      reserveEntryAt client fuel entry m = .error fault) ∨
    ∃ s' m', reserveEntry (entryOf entry) s = .ok s' ∧
      reserveEntryAt client fuel entry m = .ok m' ∧ Stored (Between client e) m m' ∧
      Mirrors rtab client m' s' e ∧ Sound s' ∧ SameShape s s' ∧ s'.clients[0]?.isSome := by
  have hge := hm.regions.le
  simp only [clientSize] at hge
  have h36 : add32 client 36 = client + 36 := add32_eq (by omega)
  have h16 : add32 client 16 = client + 16 := add32_eq (by omega)
  rw [reserveEntryAt, h36, h16, hm.state,
    allocRangeAt_eq hm.regions (by simp [clientSize]) he hm.some hstarts hfuel]
  cases hrange : allocRange (sizeInWholeFrames entry.length frameWidth % wordSize)
      (entry.baseAddr % wordSize) s.regions with
  -- a range that is not there, or one that is, but has no frames
  | error fault =>
      refine .inl ⟨fault, ?_, rfl⟩
      rw [reserveEntry, hsys]
      simp only [entryOf, hrange]
      rfl
  | ok g =>
      simp only [Except.map]
      by_cases hzero : g.nFrames = 0
      · refine .inl ⟨_, ?_, if_pos hzero⟩
        rw [reserveEntry, hsys]
        simp only [entryOf, hrange, Except.bind]
        rw [if_pos hzero]
      · have hn : sizeInWholeFrames entry.length frameWidth % wordSize < wordSize :=
          Nat.mod_lt _ (by decide)
        have hpos : 0 < sizeInWholeFrames entry.length frameWidth % wordSize := by
          obtain ⟨r, -, -, -, hmin⟩ := allocRange_spec S.region hn hrange
          omega
        obtain ⟨r, p, -⟩ := allocRange_picked S hpos hn hrange
        obtain ⟨hstored, hregions⟩ := takeAt_spec S p hm.regions he system.owner
        obtain ⟨m2, hm2⟩ : ∃ m2, m2 = clearFramesAt
            (placeOf (client + clientSize) s.regions g.region + 28)
            (add32 g.first g.nFrames - g.first) g.first
            (subtractPredecessorsAt (placeOf (client + clientSize) s.regions g.region + 28)
              (freeAt m (placeOf (client + clientSize) s.regions g.region + 28) g.first)
              g.first m) := ⟨_, rfl⟩
        simp only [← hm2] at hstored hregions ⊢
        simp only [clientSize] at hstored hregions
        obtain ⟨clients, hclients⟩ : ∃ clients, clients
            = (s.taken system.owner g r).clients.set 0 { system with
                nAllocatedPhysFrames := add32 system.nAllocatedPhysFrames g.nFrames } := ⟨_, rfl⟩
        refine .inr ⟨{ s.taken system.owner g r with clients }, _, ?_, if_neg hzero,
          ?_, ⟨?_, ?_, ?_⟩, (p.sound S system.owner).of_clients _,
          taken_sameShape system.owner p.region, ?_⟩
        · -- the call in the model
          rw [reserveEntry, hsys]
          simp only [entryOf, hrange, Except.bind]
          rw [if_neg hzero, p.takeFrames_eq S, hclients]
          rfl
        · -- the stores go to the region and to the count of the system client
          refine (hstored.mono ?_).store _ ⟨by omega, by omega⟩
          rintro y ⟨h1, h2⟩
          exact ⟨by omega, h2⟩
        · exact hregions.congr fun x h1 _ => byte_store32_ne _ _ _ _ (by omega)
        · rw [load32_store32_ne _ _ _ _ (by omega), ← hm.state]
          refine load32_congr fun x h1 h2 => hstored.byte_eq fun y hy => .inl ?_
          have := hy.1
          omega
        · intro hnil
          have hlen := congrArg List.length hnil
          simp only [State.taken, List.length_set, List.length_nil] at hlen
          exact hm.some (List.length_eq_zero_iff.mp hlen)
        · have hlt : 0 < s.clients.length := (List.getElem?_eq_some_iff.mp hsys).1
          simp [hclients, State.taken, hlt]

/-- **The second pass** as a whole, up to its end or to a `PANIC`. -/
theorem reserveEntriesAt_spec (es : List Page.MmapEntry) (S : Sound s)
    (hm : Mirrors rtab client m s e) (he : e < wordSize)
    (hfuel : s.regions.length < fuel) {system : Client} (hsys : s.clients[0]? = some system)
    (hstarts : ∀ entry ∈ es, entry.type = nonFree → Starts s.regions entry) :
    Stored (Between client e) m (reserveEntriesAt client fuel es m).1 ∧
    ((∃ s', reserveEntries (es.map entryOf) s = .ok s' ∧
        (reserveEntriesAt client fuel es m).2 = .ok () ∧
        Mirrors rtab client (reserveEntriesAt client fuel es m).1 s' e) ∨
      ∃ fault, reserveEntries (es.map entryOf) s = .error fault ∧
        (reserveEntriesAt client fuel es m).2 = .error fault) := by
  induction es generalizing m s system with
  | nil => exact ⟨.refl _ _, .inl ⟨s, rfl, rfl, hm⟩⟩
  | cons entry es ih =>
      have hrest := fun x hx => hstarts x (List.mem_cons_of_mem entry hx)
      have hiff : (entryOf entry).type = .nonFree ↔ entry.type = nonFree :=
        ofNat_eq_nonFree entry.type
      rw [reserveEntriesAt, List.map_cons, reserveEntries]
      by_cases htype : entry.type = nonFree
      · rw [if_neg (not_not.mpr htype), if_pos (hiff.mpr htype)]
        rcases reserveEntryAt_spec S hm he hfuel hsys (hstarts entry List.mem_cons_self htype) with
          ⟨fault, hvalue, hat⟩ | ⟨s', m', hvalue, hat, hstored, hm', S', hshape, hsys'⟩
        · rw [hvalue, hat]
          exact ⟨.refl _ _, .inr ⟨fault, rfl, rfl⟩⟩
        · obtain ⟨system', hsys'⟩ := Option.isSome_iff_exists.mp hsys'
          have hlen : s'.regions.length = s.regions.length := by
            have := congrArg List.length hshape
            simpa using this
          rw [hvalue, hat]
          obtain ⟨hstored', hend⟩ := ih S' hm' (hlen ▸ hfuel) hsys' fun x hx ht =>
            (hrest x hx ht).of_shape hshape
          exact ⟨hstored.trans hstored', hend⟩
      · rw [if_pos htype, if_neg (fun h => htype (hiff.mp h))]
        exact ih S hm hfuel hsys hrest

/-! ## §5. The whole call. -/

theorem initClient_spec (methods : Nat) (m : Memory) (h : client + clientSize < wordSize) :
    Stored (Between client (client + clientSize)) m (initClient methods client m) ∧
      (initClient methods client m).load32 (client + 36) = client + clientSize := by
  simp only [clientSize] at *
  have hadd : ∀ k ≤ 40, add32 client k = client + k := fun k hk => add32_eq (by omega)
  simp only [initClient, clientSize, hadd 4 (by omega), hadd 16 (by omega), hadd 20 (by omega),
    hadd 24 (by omega), hadd 28 (by omega), hadd 32 (by omega), hadd 36 (by omega),
    hadd 40 (by omega)]
  constructor
  · refine ((((((((Stored.refl _ m).store _ ?_).store _ ?_).store _ ?_).store _ ?_).store _ ?_
      ).store _ ?_).store _ ?_).store _ ?_
    all_goals exact ⟨by omega, by omega⟩
  · exact load32_store32_same _ _ _ h

open Bootinfo in
/-- **What `create` writes** lies from the address it is given to the end of the records,
the last word of them included, and it ends as the model on values does. -/
theorem createAt_stores (methods : Nat) {b : Page} {log : List Record} (h : Holds b log)
    (hfuel : pageSize ≤ fuel) (hrtab : rtab < wordSize) (hpage : address + pageSize ≤ client)
    (hsome : regionsOf (log.filterMap Record.mmapEntry) ≠ [])
    (hroom : client + clientSize + recordsSize (regionsOf (log.filterMap Record.mmapEntry))
      < wordSize)
    (hstarts : ∀ entry ∈ log.filterMap Record.mmapEntry, entry.type = nonFree →
      Starts (regionsOf (log.filterMap Record.mmapEntry)) entry)
    (ramtab : Ramtab) (regionList : Option RegionList) :
    let es := log.filterMap Record.mmapEntry
    let e := client + clientSize + recordsSize (regionsOf es)
    ∃ b' ended, createAt methods rtab client fuel b = some (b', ended) ∧
      Stored (Between client e) b.mem b'.mem ∧ StoredAt (e - 4) b.mem b'.mem ∧
      ((∃ s, create (es.map entryOf) ramtab regionList = .ok s ∧ ended = .ok () ∧
          Mirrors rtab client b'.mem s e) ∨
        ∃ fault, create (es.map entryOf) ramtab regionList = .error fault ∧
          ended = .error fault) := by
  intro es e
  have hin := h.inside
  have hstate : add32 client clientSize = client + clientSize := add32_eq (by omega)
  obtain ⟨hs0, hpointer⟩ := initClient_spec methods b.mem
    (show client + clientSize < wordSize by omega)
  obtain ⟨m0, hm0⟩ : ∃ m0, m0 = initClient methods client b.mem := ⟨_, rfl⟩
  rw [← hm0] at hs0 hpointer
  obtain ⟨hs1, hregions, hlast, hend⟩ :=
    initRegions_spec hrtab es (client + clientSize) m0 hroom
  obtain ⟨out, hout⟩ : ∃ out,
      out = initRegions rtab es (client + clientSize) (client + clientSize) m0 := ⟨_, rfl⟩
  rw [← hout] at hs1 hregions hlast hend
  obtain ⟨r, rs, hrs⟩ := List.exists_cons_of_ne_nil hsome
  have hrs' : regionsOf es = r :: rs := hrs
  rw [hrs'] at hlast hregions
  have he : e < wordSize := hroom
  have hplace : client + clientSize ≤ out.2 ∧ out.2 + 28 ≤ e := by
    rw [hlast]
    refine ⟨le_lastAt _ _ _ _, ?_⟩
    simp only [e, hrs']
    exact lastAt_le _ _ _ _
  have hlink : add32 out.2 20 = out.2 + 20 := add32_eq (by omega)
  obtain ⟨m2, hm2⟩ : ∃ m2, m2 = out.1.store32 (out.2 + 20) 0 := ⟨_, rfl⟩
  have hs2 : Stored (Between (client + clientSize) e) m0 m2 := by
    rw [hm2]
    exact hs1.store _ ⟨by omega, by omega⟩
  have hreg2 : Regions rtab m2 0 (client + clientSize) (regionsOf es) e := by
    rw [hm2, hlast]
    simp only [e, hrs']
    exact hregions.relink (show 0 < wordSize by decide) (client + clientSize)
  -- the page is below the records, so both passes read the same map
  have hread : ∀ m', Stored (Between client e) b.mem m' →
      Page.mmapEntries { b with mem := m' } fuel = some es := fun m' hm' => by
    refine (h.of_mem fun x hx => hm'.byte_eq fun y hy => .inl ?_).mmapEntries hfuel
    have := hy.1
    omega
  have hs0' : Stored (Between client e) b.mem m0 := hs0.mono fun y hy =>
    ⟨hy.1, le_trans hy.2 (Nat.le_add_right _ _)⟩
  have hs2' : Stored (Between client e) b.mem m2 := hs0'.trans (hs2.mono fun y hy =>
    ⟨le_trans (Nat.le_add_right _ _) hy.1, hy.2⟩)
  have hmirrors : Mirrors rtab client m2 (freshState (es.map entryOf) ramtab regionList) e := by
    refine ⟨hreg2, ?_, hsome⟩
    rw [← hpointer]
    refine load32_congr fun x h1 h2 => hs2.byte_eq fun y hy => .inl ?_
    have := hy.1
    simp only [clientSize] at this
    omega
  have hlen : (freshState (es.map entryOf) ramtab regionList).regions.length < fuel := by
    have hcount : (freshState (es.map entryOf) ramtab regionList).regions.length ≤ log.length := by
      simp only [freshState, List.length_map]
      refine le_trans (List.length_filter_le _ _) ?_
      rw [List.length_map]
      exact List.length_filterMap_le _ _
    exact lt_of_le_of_lt hcount (lt_of_lt_of_le h.length_lt hfuel)
  have hcreate : create (es.map entryOf) ramtab regionList
      = reserveEntries (es.map entryOf) (freshState (es.map entryOf) ramtab regionList) := by
    unfold create
    exact if_neg hsome
  obtain ⟨hs3, hended⟩ := reserveEntriesAt_spec es (freshState_sound _ _ _) hmirrors hroom hlen
    rfl hstarts
  refine ⟨{ b with mem := (reserveEntriesAt client fuel es m2).1 },
    (reserveEntriesAt client fuel es m2).2, ?_, hs2'.trans hs3, ?_, ?_⟩
  · simp only [createAt, ← hm0, hstate, hread m0 hs0', ← hout, hlink, ← hm2, hread m2 hs2',
      Option.bind_eq_bind, Option.bind_some, Option.pure_def]
  · refine ((hend hsome).before hs0').after (P := fun _ => True) ?_
    refine Stored.trans ?_ (hs3.mono fun _ _ => trivial)
    rw [hm2]
    exact (Stored.refl _ _).store _ trivial
  · rw [hcreate]
    exact hended

end Metta.FramesMod
