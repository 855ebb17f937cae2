/-
  Metta.MettaFs.Requests — which requests to the cache come to an end.

  All blocks on the list are dirty, so `get_blocks` never finds one that it could
  use again: it gives new blocks while the map has room for them, and looks for a
  block for ever when it has not.  The blocks that a small read has read from the
  device are not put into the cache, so the next turn reads them again.

    • `Finishes` — a call that returns or throws,
    • `Inv.getBlocks_finishes_iff` — `get_blocks`,
    • `Written`, `Inv.write_block` — one block is written,
    • `Inv.readSmall_finishes_iff`, `Inv.cachedRead_finishes_iff` — reads,
    • `Inv.writeLoop_finishes_iff` — writes,
    • `requests_finish_iff` — all three, in every state that calls lead to.
-/
import Metta.MettaFs.Bookkeeping
import Metta.MettaFs.StorageFile

namespace Metta.MettaFs

open Metta.Machine

namespace SharedCache

variable {δ α β : Type} {dv : Devices δ} {fuel device blockSize : Nat} {st st' : SharedCache δ}
  {xs : List Nat}

/-! ## §1. Calls that come to an end. -/

/-- A call has returned or thrown. -/
def Returned : Except (Stop δ) α → Prop
  | .ok _ => True
  | .error (.thrown _ _) => True
  | .error .assertion => False
  | .error .outOfFuel => False

/-- A call returns or throws after some number of turns of its loops. -/
def Finishes (call : Nat → Except (Stop δ) α) : Prop := ∃ fuel, Returned (call fuel)

theorem returned_map {x : Except (Stop δ) α} {f : α → β} : Returned (x.map f) ↔ Returned x := by
  cases x with
  | ok a => exact Iff.rfl
  | error e =>
      cases e with
      | thrown what st => exact Iff.rfl
      | assertion => exact Iff.rfl
      | outOfFuel => exact Iff.rfl

theorem Returned.of_bind {x : Except (Stop δ) α} {f : α → Except (Stop δ) β}
    (h : Returned (x.bind f)) : Returned x := by
  cases x with
  | ok a => trivial
  | error e =>
      cases e with
      | thrown what st => trivial
      | assertion => exact h
      | outOfFuel => exact h

theorem finishes_map {call : Nat → Except (Stop δ) α} {f : α → β} :
    (Finishes fun fuel => (call fuel).map f) ↔ Finishes call :=
  exists_congr fun _ => returned_map

/-- A call that does the same whatever the bound is. -/
theorem finishes_const {call : Nat → Except (Stop δ) α} {r : Except (Stop δ) α}
    (h : ∀ fuel, call fuel = r) : Finishes call ↔ Returned r := by
  constructor
  · intro hcall
    obtain ⟨fuel, hr⟩ := hcall
    rwa [h fuel] at hr
  · intro hr
    exact ⟨0, (h 0).symm ▸ hr⟩

/-- A call that needs a turn at least. -/
theorem finishes_succ {call : Nat → Except (Stop δ) α} (h : ¬ Returned (call 0)) :
    Finishes call ↔ Finishes fun fuel => call (fuel + 1) := by
  constructor
  · intro hcall
    obtain ⟨fuel, hr⟩ := hcall
    cases fuel with
    | zero => exact absurd hr h
    | succ fuel => exact ⟨fuel, hr⟩
  · intro hcall
    obtain ⟨fuel, hr⟩ := hcall
    exact ⟨fuel + 1, hr⟩

/-! ## §2. `get_blocks`. -/

theorem Inv.free_eq (h : Inv st xs) (hmax : st.maxBlocks < 2 ^ 64) :
    (st.maxBlocks + 2 ^ 64 - st.cache.size) % 2 ^ 64 = st.maxBlocks - st.cache.size := by
  have hsize := h.size
  have hsub : st.maxBlocks + 2 ^ 64 - st.cache.size = st.maxBlocks - st.cache.size + 2 ^ 64 := by
    omega
  rw [hsub, Nat.add_mod_right, Nat.mod_eq_of_lt (by omega)]

/-- Where there is room, all blocks are new. -/
theorem Inv.getBlocks_room (h : Inv st xs) (hmax : st.maxBlocks < 2 ^ 64) {n : Nat}
    (hroom : st.cache.size + n ≤ st.maxBlocks) (fuel : Nat) :
    SharedCache.getBlocks fuel st n blockSize = .ok (st.allocate n blockSize) := by
  have hmin : min (st.maxBlocks - st.cache.size) n = n := by omega
  unfold SharedCache.getBlocks
  rw [if_neg (by omega), h.free_eq hmax]
  show SharedCache.evict blockSize fuel (n - min (st.maxBlocks - st.cache.size) n)
    (st.allocate (min (st.maxBlocks - st.cache.size) n) blockSize).1
    (st.allocate (min (st.maxBlocks - st.cache.size) n) blockSize).2 = _
  rw [hmin, Nat.sub_self]
  cases fuel with
  | zero => rfl
  | succ fuel => rfl

/-- No block of the list can be used again, so the second loop never ends. -/
theorem Inv.evict_stuck (h : Inv st xs) (n : Nat) (ret : List Nat) :
    SharedCache.evict blockSize fuel (n + 1) st ret = .error .outOfFuel := by
  induction fuel with
  | zero => rfl
  | succ fuel ih =>
      rw [SharedCache.evict, h.holds.lru_eq]
      split
      · rfl
      · exact ih
      · next id hid => exact absurd hid (h.usableFrom (List.nil_append xs).symm id)

/-- Where there is no room, it goes on looking. -/
theorem Inv.getBlocks_stuck (h : Inv st xs) (hmax : st.maxBlocks < 2 ^ 64) {n : Nat}
    (hn : n ≤ st.maxBlocks) (hfull : st.maxBlocks < st.cache.size + n) (fuel : Nat) :
    SharedCache.getBlocks fuel st n blockSize = .error .outOfFuel := by
  have hsize := h.size
  obtain ⟨k, hk⟩ : ∃ k, n - min (st.maxBlocks - st.cache.size) n = k + 1 :=
    ⟨n - min (st.maxBlocks - st.cache.size) n - 1, by omega⟩
  unfold SharedCache.getBlocks
  rw [if_neg (by omega), h.free_eq hmax]
  show SharedCache.evict blockSize fuel (n - min (st.maxBlocks - st.cache.size) n)
    (st.allocate (min (st.maxBlocks - st.cache.size) n) blockSize).1
    (st.allocate (min (st.maxBlocks - st.cache.size) n) blockSize).2 = _
  rw [hk]
  exact (h.allocate _ _).evict_stuck k _

/-- **`get_blocks`** returns exactly when the map has room for as many blocks. -/
theorem Inv.getBlocks_finishes_iff (h : Inv st xs) (hmax : st.maxBlocks < 2 ^ 64) {n : Nat}
    (hn : n ≤ st.maxBlocks) :
    (Finishes fun fuel => SharedCache.getBlocks fuel st n blockSize) ↔ st.cache.size + n ≤ st.maxBlocks := by
  by_cases hroom : st.cache.size + n ≤ st.maxBlocks
  · rw [finishes_const (h.getBlocks_room hmax hroom)]
    exact iff_of_true trivial hroom
  · rw [finishes_const (h.getBlocks_stuck hmax hn (by omega))]
    exact iff_of_false id hroom

/-! ## §3. One block is written. -/

/-- The state after a block was written: the map has it under the key, with its data, and what it
has under other keys is as it was. -/
structure Written (st st' : SharedCache δ) (device b blockSize : Nat) (data : List UInt8) : Prop where
  inv : ∃ ys, Inv st' ys
  maxBlocks : st'.maxBlocks = st.maxBlocks
  disk : st'.disk = st.disk
  size : st'.cache.size = st.cache.size + if st.cache.find (device, b) = none then 1 else 0
  found : ∃ id, st'.cache.find (device, b) = some (some id) ∧
    (st'.entries id).blockSize = blockSize ∧ (st'.entries id).data = data
  others : ∀ k, k ≠ (device, b) → st'.cache.find k = st.cache.find k ∧
    ∀ id, st.cache.find k = some (some id) → st'.entries id = st.entries id

/-- A block that is not on the list is filled, in a state that has the map of `st`. -/
theorem Ready.written {b id : Nat} {data : List UInt8} {st₁ : SharedCache δ}
    (h : Ready st₁ xs id (device, b)) (hcache : st₁.cache = st.cache)
    (hmax : st₁.maxBlocks = st.maxBlocks) (hdisk : st₁.disk = st.disk)
    (hsize : (st₁.entries id).blockSize = blockSize)
    (hold : ∀ k j, st.cache.find k = some (some j) → st₁.entries j = st.entries j) :
    ∃ st', SharedCache.fill st₁ id device b data = .ok st' ∧
      Written st st' device b blockSize data := by
  obtain ⟨l, hlink, -⟩ := h.holds.linkAtMru h.not_mem
  have hkept : Ends _ _ (SharedCache.fill st₁ id device b data) := h.fill
  unfold SharedCache.fill at hkept ⊢
  rw [hlink] at hkept ⊢
  -- the entry counts for `size` only where the map had none for the key
  refine ⟨_, rfl, hkept.1, hmax, hdisk, ?_, ⟨id, ?_, ?_, ?_⟩, ?_⟩
  · show (st₁.cache.assign (device, b) (some id)).size = _
    rw [hcache]
    cases hfind : st.cache.find (device, b) with
    | none => rw [UnorderedMap.size_assign_of_none hfind, if_pos rfl]
    | some p => rw [UnorderedMap.size_assign_of_some hfind, if_neg (Option.some_ne_none p), Nat.add_zero]
  · show (st₁.cache.assign (device, b) (some id)).find (device, b) = _
    rw [UnorderedMap.find_assign, if_pos rfl]
  · show (Function.update st₁.entries id _ id).blockSize = blockSize
    rw [Function.update_self]
    exact hsize
  · show (Function.update st₁.entries id _ id).data = data
    rw [Function.update_self]
  · intro k hk
    constructor
    · show (st₁.cache.assign (device, b) (some id)).find k = _
      rw [UnorderedMap.find_assign, if_neg (Ne.symm hk), hcache]
    · intro j hj
      -- the block that is written to was off the list, so the map had it under no other key
      have hne : j ≠ id := by
        intro heq
        have hmem := (h.listed k j (hcache ▸ hj) hk).1
        exact h.not_mem (heq ▸ hmem)
      show Function.update st₁.entries id _ j = st.entries j
      rw [Function.update_of_ne hne]
      exact hold k j hj

/-- A block can be written while the map has `size` entries: the block of the cache has the size of
the request, or there is none and the map has room. -/
def Writable (st : SharedCache δ) (device blockSize size b : Nat) : Prop :=
  match st.blockLookup device b with
  | some id => (st.entries id).blockSize = blockSize
  | none => size < st.maxBlocks

/-- What a turn of the loop of `cached_write` does, whatever the bound of the loops is. -/
theorem Inv.write_block (h : Inv st xs) (hmax : st.maxBlocks < 2 ^ 64)
    (hsize : blockSize < 2 ^ 64) {b : Nat} (data : List UInt8)
    (hgo : Writable st device blockSize st.cache.size b) :
    ∃ st', (∀ fuel, (SharedCache.entryFor fuel st device b blockSize).bind
        (fun r => SharedCache.fill r.1 r.2 device b data) = .ok st') ∧
      Written st st' device b blockSize data := by
  unfold Writable at hgo
  cases hlook : st.blockLookup device b with
  -- the block is cached: it comes off the list and goes to its end
  | some id =>
      rw [hlook] at hgo
      have hentry : ∀ fuel, SharedCache.entryFor fuel st device b blockSize =
          .ok ({ st with blocks := st.blocks.unlinkFrom id }, id) := by
        intro fuel
        unfold SharedCache.entryFor
        rw [hlook]
        exact if_neg (not_not_intro hgo)
      have hready : Ends _ _ (SharedCache.entryFor 0 st device b blockSize) := h.entryFor hsize
      rw [hentry] at hready
      obtain ⟨hcache, ys, hready⟩ := hready
      obtain ⟨st', hfill, hwritten⟩ := hready.written hcache rfl rfl hgo fun _ _ _ => rfl
      refine ⟨st', fun fuel => ?_, hwritten⟩
      rw [hentry]
      exact hfill
  -- it is not: there is room, so one block is allocated and nothing is evicted
  | none =>
      rw [hlook] at hgo
      have hentry : ∀ fuel, SharedCache.entryFor fuel st device b blockSize =
          .ok ((st.allocate 1 blockSize).1, st.next) := by
        intro fuel
        unfold SharedCache.entryFor
        rw [hlook]
        show (SharedCache.getBlocks fuel st 1 blockSize).bind _ = _
        rw [h.getBlocks_room hmax hgo]
        rfl
      have hready : Ends _ _ (SharedCache.entryFor 0 st device b blockSize) := h.entryFor hsize
      rw [hentry] at hready
      obtain ⟨hcache, ys, hready⟩ := hready
      have hnew : ((st.allocate 1 blockSize).1.entries st.next).blockSize = blockSize := by
        show (if st.next ≤ st.next ∧ st.next < st.next + 1 then SizedBlock.new blockSize
          else st.entries st.next).blockSize = blockSize
        rw [if_pos ⟨le_refl _, Nat.lt_succ_self _⟩]
        rfl
      have hold : ∀ k j, st.cache.find k = some (some j) →
          (st.allocate 1 blockSize).1.entries j = st.entries j := by
        intro k j hj
        have hlt := h.lt j (h.listed k j hj).1
        exact if_neg fun hle => absurd hlt (Nat.not_lt_of_le hle.1)
      obtain ⟨st', hfill, hwritten⟩ := hready.written hcache rfl rfl hnew hold
      refine ⟨st', fun fuel => ?_, hwritten⟩
      rw [hentry]
      exact hfill

/-- Otherwise the turn does not end, or ends in an assertion. -/
theorem Inv.write_block_stuck (h : Inv st xs) (hmax : st.maxBlocks < 2 ^ 64)
    (hpos : 1 ≤ st.maxBlocks) {b : Nat}
    (hgo : ¬ Writable st device blockSize st.cache.size b) (fuel : Nat) :
    ¬ Returned (SharedCache.entryFor fuel st device b blockSize) := by
  intro hreturned
  unfold Writable at hgo
  unfold SharedCache.entryFor at hreturned
  cases hlook : st.blockLookup device b with
  | some id =>
      rw [hlook] at hgo hreturned
      simp only [if_pos hgo] at hreturned
      exact hreturned
  | none =>
      rw [hlook] at hgo hreturned
      simp only [h.getBlocks_stuck hmax hpos (Nat.lt_succ_of_le (Nat.le_of_not_lt hgo))]
        at hreturned
      exact hreturned

/-! ## §4. Writing. -/

/-- How many of the first `i` blocks of a request the map has no entry for. -/
def unmapped (st : SharedCache δ) (device b i : Nat) : Nat :=
  (List.range i).countP fun j => (st.cache.find (device, (b + j) % 2 ^ 64)).isNone

/-- Every block of the request can be written when it is its turn: a block that is not in the cache
finds room for one entry more than the map has then, with those for the blocks before. -/
def CanWrite (st : SharedCache δ) (device b n blockSize : Nat) : Prop :=
  ∀ i < n, Writable st device blockSize (st.cache.size + unmapped st device b i) ((b + i) % 2 ^ 64)

theorem block_succ (b i : Nat) : (b + (i + 1)) % 2 ^ 64 = ((b + 1) % 2 ^ 64 + i) % 2 ^ 64 := by
  omega

/-- The first block of a request and the others. -/
theorem forall_blocks {P : Nat → Prop} {b n : Nat} (hb : b < 2 ^ 64) :
    (∀ i < n + 1, P ((b + i) % 2 ^ 64)) ↔ P b ∧ ∀ i < n, P (((b + 1) % 2 ^ 64 + i) % 2 ^ 64) := by
  constructor
  · intro hall
    constructor
    · have hfirst := hall 0 (Nat.succ_pos n)
      rwa [Nat.add_zero, Nat.mod_eq_of_lt hb] at hfirst
    · intro i hi
      rw [← block_succ]
      exact hall (i + 1) (Nat.succ_lt_succ hi)
  · intro hall i hi
    cases i with
    | zero =>
        rw [Nat.add_zero, Nat.mod_eq_of_lt hb]
        exact hall.1
    | succ i =>
        rw [block_succ]
        exact hall.2 i (Nat.lt_of_succ_lt_succ hi)

theorem unmapped_succ {b : Nat} (hb : b < 2 ^ 64) (i : Nat) :
    unmapped st device b (i + 1) = (if st.cache.find (device, b) = none then 1 else 0)
      + unmapped st device ((b + 1) % 2 ^ 64) i := by
  unfold unmapped
  rw [List.range_succ_eq_map, List.countP_cons, List.countP_map, Nat.add_comm]
  congr 1
  · rw [Nat.add_zero, Nat.mod_eq_of_lt hb]
    cases st.cache.find (device, b) with
    | none => rfl
    | some p => rfl
  · apply List.countP_congr
    intro j _
    show (st.cache.find (device, (b + (j + 1)) % 2 ^ 64)).isNone = true ↔ _
    rw [block_succ]

/-- The other blocks of a request are not that block again. -/
theorem block_ne {b i n : Nat} (hn : n < 2 ^ 64) (hi : i < n) :
    ((device, ((b + 1) % 2 ^ 64 + i) % 2 ^ 64) : Nat × Nat) ≠ (device, b) := by
  intro heq
  have hblock := congrArg Prod.snd heq
  simp only at hblock
  omega

theorem Written.unmapped_eq {b n : Nat} {data : List UInt8}
    (h : Written st st' device b blockSize data) (hn : n < 2 ^ 64) :
    unmapped st' device ((b + 1) % 2 ^ 64) n = unmapped st device ((b + 1) % 2 ^ 64) n := by
  apply List.countP_congr
  intro i hi
  rw [(h.others _ (block_ne hn (List.mem_range.mp hi))).1]

theorem Written.writable_iff {b c size : Nat} {data : List UInt8}
    (h : Written st st' device b blockSize data) (hc : ((device, c) : Nat × Nat) ≠ (device, b)) :
    Writable st' device blockSize size c ↔ Writable st device blockSize size c := by
  obtain ⟨hfind, hentries⟩ := h.others _ hc
  unfold Writable SharedCache.blockLookup
  rw [hfind, h.maxBlocks]
  cases hp : st.cache.find (device, c) with
  | none => exact Iff.rfl
  | some p =>
      cases p with
      | none => exact Iff.rfl
      | some id =>
          show (st'.entries id).blockSize = blockSize ↔ (st.entries id).blockSize = blockSize
          rw [hentries id hp]

/-- The first block of a request and the rest of it. -/
theorem Written.canWrite_succ {b n : Nat} {data : List UInt8}
    (h : Written st st' device b blockSize data) (hb : b < 2 ^ 64) (hn : n < 2 ^ 64)
    (hgo : Writable st device blockSize st.cache.size b) :
    CanWrite st device b (n + 1) blockSize ↔
      CanWrite st' device ((b + 1) % 2 ^ 64) n blockSize := by
  have hturn : ∀ i < n,
      (Writable st device blockSize (st.cache.size + unmapped st device b (i + 1))
          ((b + (i + 1)) % 2 ^ 64) ↔
        Writable st' device blockSize
          (st'.cache.size + unmapped st' device ((b + 1) % 2 ^ 64) i)
          (((b + 1) % 2 ^ 64 + i) % 2 ^ 64)) := by
    intro i hi
    rw [h.writable_iff (block_ne hn hi), h.unmapped_eq (by omega), h.size, block_succ,
      unmapped_succ hb, Nat.add_assoc]
  constructor
  · intro hall i hi
    exact (hturn i hi).mp (hall (i + 1) (Nat.succ_lt_succ hi))
  · intro hall i hi
    cases i with
    | zero =>
        rw [Nat.add_zero, Nat.mod_eq_of_lt hb]
        exact hgo
    | succ i => exact (hturn i (Nat.lt_of_succ_lt_succ hi)).mpr (hall i (Nat.lt_of_succ_lt_succ hi))

theorem writeLoop_succ (b n : Nat) (buffer : List UInt8) :
    writeLoop fuel device blockSize st b (n + 1) buffer =
      ((entryFor fuel st device b blockSize).bind fun r =>
        fill r.1 r.2 device b (buffer.take blockSize)).bind fun st =>
          writeLoop fuel device blockSize st ((b + 1) % 2 ^ 64) n (buffer.drop blockSize) := by
  rw [writeLoop]
  cases entryFor fuel st device b blockSize with
  | ok r => rfl
  | error e => rfl

/-- **The loop of `cached_write`** ends exactly when every block can be written. -/
theorem Inv.writeLoop_finishes_iff (h : Inv st xs) (hmax : st.maxBlocks < 2 ^ 64)
    (hpos : 1 ≤ st.maxBlocks) (hsize : blockSize < 2 ^ 64) {b n : Nat} (hb : b < 2 ^ 64)
    (hn : n < 2 ^ 64) (buffer : List UInt8) :
    (Finishes fun fuel => SharedCache.writeLoop fuel device blockSize st b n buffer) ↔
      CanWrite st device b n blockSize := by
  induction n generalizing st xs b buffer with
  | zero =>
      refine iff_of_true ⟨0, trivial⟩ ?_
      intro i hi
      exact absurd hi (Nat.not_lt_zero i)
  | succ n ih =>
      by_cases hgo : Writable st device blockSize st.cache.size b
      · -- a turn that can be done is done for every bound of the loops
        obtain ⟨st', hturn, hwritten⟩ := h.write_block hmax hsize (buffer.take blockSize) hgo
        obtain ⟨ys, hinv⟩ := hwritten.inv
        have hnext : (b + 1) % 2 ^ 64 < 2 ^ 64 := Nat.mod_lt _ (by decide)
        rw [hwritten.canWrite_succ hb (by omega) hgo,
          ← ih hinv (hwritten.maxBlocks ▸ hmax) (hwritten.maxBlocks ▸ hpos) hnext (by omega)
            (buffer.drop blockSize)]
        apply exists_congr
        intro fuel
        show Returned (SharedCache.writeLoop fuel device blockSize st b (n + 1) buffer) ↔ _
        rw [writeLoop_succ, hturn fuel]
        exact Iff.rfl
      · -- this block is the first that cannot be written
        refine iff_of_false ?_ ?_
        · intro hfinishes
          obtain ⟨fuel, hreturned⟩ := hfinishes
          have hloop : Returned (SharedCache.writeLoop fuel device blockSize st b (n + 1) buffer) :=
            hreturned
          rw [writeLoop_succ] at hloop
          exact h.write_block_stuck hmax hpos hgo fuel hloop.of_bind.of_bind
        · intro hall
          have hfirst := hall 0 (Nat.succ_pos n)
          rw [Nat.add_zero, Nat.mod_eq_of_lt hb] at hfirst
          exact hgo hfirst

/-- **`cached_write`**. -/
theorem Inv.cachedWrite_finishes_iff (h : Inv st xs) (hmax : st.maxBlocks < 2 ^ 64)
    (hpos : 1 ≤ st.maxBlocks) (hsize : blockSize < 2 ^ 64) {b n : Nat} (hb : b < 2 ^ 64)
    (hn : n < 2 ^ 64) (data : List UInt8) :
    (Finishes fun fuel => SharedCache.cachedWrite fuel st device b data n blockSize) ↔
      CanWrite st device b n blockSize := by
  rw [← h.writeLoop_finishes_iff hmax hpos hsize hb hn data]
  exact finishes_map

/-! ## §5. Reading. -/

/-- The device works for a request: a part of it that is read is read whole. -/
structure Working (dv : Devices δ) (device blockSize nblocks : Nat) : Prop where
  mapped : dv.mapped device = true
  reads : ∀ disk b n buffer, n ≤ nblocks →
    n ≤ (dv.readBlock disk device b (n * blockSize % 2 ^ 64) buffer).1.2

theorem Working.mono {n m : Nat} (h : Working dv device blockSize n) (hle : m ≤ n) :
    Working dv device blockSize m :=
  ⟨h.mapped, fun disk b k buffer hk => h.reads disk b k buffer (hk.trans hle)⟩

/-- The blocks of the request that are in the cache have its block size. -/
def Sized (st : SharedCache δ) (device b n blockSize : Nat) : Prop :=
  ∀ i < n, ∀ id, st.blockLookup device ((b + i) % 2 ^ 64) = some id →
    (st.entries id).blockSize = blockSize

/-- All blocks of the request are in the cache, with its block size. -/
def Cached (st : SharedCache δ) (device b n blockSize : Nat) : Prop :=
  ∀ i < n, ∃ id, st.blockLookup device ((b + i) % 2 ^ 64) = some id ∧
    (st.entries id).blockSize = blockSize

theorem stripe_le (st : SharedCache δ) (device b n : Nat) : st.stripe device b (n + 1) ≤ n + 1 := by
  have hlength := (List.takeWhile_sublist (l := List.range n) fun k =>
    (st.blockLookup device ((b + 1 + k) % 2 ^ 64)).isNone).length_le
  rw [List.length_range] at hlength
  unfold stripe
  rw [Nat.add_sub_cancel]
  omega

/-- **A block that is not in the cache** is read again and again. -/
theorem Inv.readSmall_stuck (h : Inv st xs) (hmax : st.maxBlocks < 2 ^ 64) {b n : Nat}
    (hn : n + 1 ≤ st.maxBlocks) (hwork : Working dv device blockSize (n + 1))
    (hlook : st.blockLookup device b = none) (done buffer : List UInt8) (fuel : Nat) :
    SharedCache.readSmall dv device blockSize fuel st b (n + 1) done buffer =
      .error .outOfFuel := by
  induction fuel generalizing st buffer with
  | zero => rfl
  | succ fuel ih =>
      have hle := st.stripe_le device b n
      have hwhole := hwork.reads st.disk b (st.stripe device b (n + 1)) buffer hle
      obtain ⟨r, disk, hr⟩ : ∃ r disk, dv.readBlock st.disk device b
          (st.stripe device b (n + 1) * blockSize % 2 ^ 64) buffer = (r, disk) := ⟨_, _, rfl⟩
      have hread : SharedCache.readBlocks dv st device b buffer (st.stripe device b (n + 1))
          blockSize = .ok (r, { st with disk := disk }) := by
        unfold SharedCache.readBlocks
        rw [if_pos hwork.mapped, hr]
      rw [hr] at hwhole
      have hinv : Inv { st with disk := disk } xs := h.disk disk
      rw [SharedCache.readSmall]
      simp only [hlook, hread, Except.bind, if_neg (Nat.not_lt_of_le hwhole)]
      by_cases hroom : st.cache.size + st.stripe device b (n + 1) ≤ st.maxBlocks
      · -- new blocks are allocated, and the map is as it was
        have hlength : (List.range' st.next (st.stripe device b (n + 1))).length =
            st.stripe device b (n + 1) := List.length_range'
        rw [hinv.getBlocks_room hmax hroom]
        simp only [SharedCache.allocate, hlength, if_neg (Nat.lt_irrefl _)]
        exact ih (hinv.allocate (st.stripe device b (n + 1)) blockSize) hmax hn hlook _
      · rw [hinv.getBlocks_stuck hmax (hle.trans hn) (Nat.lt_of_not_le hroom)]

/-- A block of the cache is the most recently used one from now on; nothing else changes. -/
theorem Inv.touch_ok (h : Inv st xs) {id : Nat} (hid : id ∈ xs) :
    ∃ blocks ys, st.touch id = .ok { st with blocks := blocks } ∧
      Inv { st with blocks := blocks } ys := by
  obtain ⟨ys, zs, rfl⟩ := List.append_of_mem hid
  have hnd := h.holds.nodup
  rw [List.nodup_middle, List.nodup_cons] at hnd
  obtain ⟨l, hlink, -⟩ := h.holds.unlinkFrom.linkAtMru hnd.1
  have htouch : st.touch id = .ok { st with blocks := l } := by
    unfold SharedCache.touch
    rw [hlink]
  have hends : Ends _ _ (st.touch id) := h.touch hid
  rw [htouch] at hends
  obtain ⟨⟨ws, hinv⟩, -⟩ := hends
  exact ⟨l, ws, htouch, hinv⟩

/-- **The loop of a small read** ends exactly when the cache has all the blocks. -/
theorem Inv.readSmall_finishes_iff (h : Inv st xs) (hmax : st.maxBlocks < 2 ^ 64) {b n : Nat}
    (hb : b < 2 ^ 64) (hn : n ≤ st.maxBlocks) (hwork : Working dv device blockSize n)
    (done buffer : List UInt8) :
    (Finishes fun fuel => SharedCache.readSmall dv device blockSize fuel st b n done buffer) ↔
      Cached st device b n blockSize := by
  induction n generalizing st xs b done buffer with
  | zero =>
      refine iff_of_true ⟨0, trivial⟩ ?_
      intro i hi
      exact absurd hi (Nat.not_lt_zero i)
  | succ n ih =>
      have hsplit : Cached st device b (n + 1) blockSize ↔
          (∃ id, st.blockLookup device b = some id ∧ (st.entries id).blockSize = blockSize) ∧
            Cached st device ((b + 1) % 2 ^ 64) n blockSize :=
        forall_blocks (P := fun c => ∃ id, st.blockLookup device c = some id ∧
          (st.entries id).blockSize = blockSize) hb
      rw [hsplit]
      cases hlook : st.blockLookup device b with
      -- `nblocks` is not changed by this branch, so the next turn is this one again
      | none =>
          rw [finishes_const (h.readSmall_stuck hmax hn hwork hlook done buffer)]
          refine iff_of_false id ?_
          intro hall
          obtain ⟨⟨id, hid, -⟩, -⟩ := hall
          cases hid
      | some id =>
          apply (finishes_succ (by intro hreturned; exact hreturned)).trans
          by_cases hsize : (st.entries id).blockSize = blockSize
          · obtain ⟨blocks, ys, htouch, hinv⟩ := h.touch_ok (h.lookup hlook).1
            have hnext : (b + 1) % 2 ^ 64 < 2 ^ 64 := Nat.mod_lt _ (by decide)
            have hrest := ih hinv hmax hnext (Nat.le_of_succ_le hn) (hwork.mono (Nat.le_succ n))
              (done ++ (st.entries id).data) (buffer.drop blockSize)
            -- a turn uses up one step of the bound and one block of the request
            have hturn : ∀ fuel,
                SharedCache.readSmall dv device blockSize (fuel + 1) st b (n + 1) done buffer =
                  SharedCache.readSmall dv device blockSize fuel { st with blocks := blocks }
                    ((b + 1) % 2 ^ 64) n (done ++ (st.entries id).data) (buffer.drop blockSize) := by
              intro fuel
              rw [SharedCache.readSmall]
              simp only [hlook, hsize, ne_eq, not_true_eq_false, if_false, htouch, Except.bind]
            simp only [hturn]
            exact hrest.trans (and_iff_right ⟨id, rfl, hsize⟩).symm
          · -- the assertion on the block size: the call does not return
            have hturn : ∀ fuel,
                SharedCache.readSmall dv device blockSize (fuel + 1) st b (n + 1) done buffer =
                  .error .assertion := by
              intro fuel
              rw [SharedCache.readSmall]
              simp only [hlook, ne_eq, hsize, not_false_eq_true, if_true]
            rw [finishes_const hturn]
            refine iff_of_false (fun hreturned => hreturned) ?_
            intro hall
            obtain ⟨⟨id', hid', hsize'⟩, -⟩ := hall
            cases hid'
            exact hsize hsize'

/-- Where the map is the same and no block has another size. -/
theorem sized_congr {b n : Nat} (hcache : st'.cache = st.cache)
    (hsame : ∀ id, (st'.entries id).blockSize = (st.entries id).blockSize) :
    Sized st' device b n blockSize ↔ Sized st device b n blockSize := by
  unfold Sized SharedCache.blockLookup
  simp only [hcache, hsame]

theorem sized_setData {b n : Nat} (id : Nat) (data : List UInt8) :
    Sized { st with entries := Function.update st.entries id { st.entries id with data := data } }
      device b n blockSize ↔ Sized st device b n blockSize := by
  refine sized_congr rfl fun j => ?_
  by_cases hj : j = id
  · show (Function.update st.entries id _ j).blockSize = (st.entries j).blockSize
    rw [hj, Function.update_self]
  · show (Function.update st.entries id _ j).blockSize = (st.entries j).blockSize
    rw [Function.update_of_ne hj]

/-- The blocks that a large read passes by are compared in their size only. -/
theorem updateDirty_returned_iff {b n : Nat} (hb : b < 2 ^ 64) (buffer : List UInt8) :
    Returned (updateDirty device blockSize st b n buffer) ↔ Sized st device b n blockSize := by
  induction n generalizing st b buffer with
  | zero =>
      refine iff_of_true trivial ?_
      intro i hi
      exact absurd hi (Nat.not_lt_zero i)
  | succ n ih =>
      have hnext : (b + 1) % 2 ^ 64 < 2 ^ 64 := Nat.mod_lt _ (by decide)
      have hsplit : Sized st device b (n + 1) blockSize ↔
          (∀ id, st.blockLookup device b = some id → (st.entries id).blockSize = blockSize) ∧
            Sized st device ((b + 1) % 2 ^ 64) n blockSize :=
        forall_blocks (P := fun c => ∀ id, st.blockLookup device c = some id →
          (st.entries id).blockSize = blockSize) hb
      rw [hsplit, updateDirty]
      cases hlook : st.blockLookup device b with
      -- the turn passes by a block that is not cached
      | none =>
          simp only
          rw [ih hnext]
          exact ⟨fun hrest => ⟨fun id hid => (by cases hid), hrest⟩, And.right⟩
      | some id =>
          simp only [Option.some.injEq, forall_eq']
          by_cases hsize : (st.entries id).blockSize = blockSize
          · -- new data does not change the size of a block
            rw [if_neg (not_not_intro hsize), and_iff_right hsize]
            by_cases hdirty : (st.entries id).dirty = true
            · rw [if_pos hdirty, ih hnext]
              exact sized_setData id _
            · rw [if_neg hdirty, ih hnext]
          · rw [if_pos hsize]
            exact iff_of_false (fun hreturned => hreturned) fun hall => hsize hall.1

/-- A read can be done: a large one if the blocks that are in the cache have the size of the
request, a small one only if the cache has them all. -/
def CanRead (st : SharedCache δ) (device b n blockSize : Nat) : Prop :=
  if n * blockSize % 2 ^ 64 > 64 * 1024 then Sized st device b n blockSize
  else Cached st device b n blockSize

/-- **`cached_read`**. -/
theorem Inv.cachedRead_finishes_iff (h : Inv st xs) (hmax : st.maxBlocks < 2 ^ 64) {b n : Nat}
    (hb : b < 2 ^ 64) (hn : n ≤ st.maxBlocks) (hwork : Working dv device blockSize n)
    (buffer : List UInt8) :
    (Finishes fun fuel => SharedCache.cachedRead dv fuel st device b buffer n blockSize) ↔
      CanRead st device b n blockSize := by
  unfold SharedCache.cachedRead CanRead
  by_cases hlarge : n * blockSize % 2 ^ 64 > 64 * 1024
  · simp only [if_pos hlarge, SharedCache.readBlocks, if_pos hwork.mapped, Except.bind]
    rw [finishes_const fun _ => rfl, returned_map, updateDirty_returned_iff hb]
    exact sized_congr rfl fun _ => rfl
  · simp only [if_neg hlarge]
    rw [← h.readSmall_finishes_iff hmax hb hn hwork [] buffer]
    exact finishes_map

/-! ## §6. The number of blocks of a cache. -/

/-- However the call ends, the cache that it leaves is for `max` blocks. -/
def Keeps (max : Nat) (get : α → SharedCache δ) : Except (Stop δ) α → Prop :=
  Ends (fun st => st.maxBlocks = max) fun a => (get a).maxBlocks = max

section Keeps

variable {max : Nat} (hst : st.maxBlocks = max)

include hst

theorem readBlocks_keeps (b n : Nat) (buffer : List UInt8) :
    Keeps max Prod.snd (readBlocks dv st device b buffer n blockSize) := by
  unfold readBlocks
  split
  · exact hst
  · trivial

theorem evict_keeps (n : Nat) (ret : List Nat) :
    Keeps max Prod.fst (evict blockSize fuel n st ret) := by
  induction fuel generalizing st n ret with
  | zero =>
      cases n with
      | zero => exact hst
      | succ n => trivial
  | succ fuel ih =>
      cases n with
      | zero => exact hst
      | succ n =>
          rw [evict]
          split
          · trivial
          · exact ih hst _ _
          · apply ih
            exact hst

theorem getBlocks_keeps (n : Nat) : Keeps max Prod.fst (getBlocks fuel st n blockSize) := by
  unfold getBlocks
  split
  · exact hst
  · apply evict_keeps
    exact hst

theorem touch_keeps (id : Nat) : Keeps max (fun st => st) (st.touch id) := by
  unfold touch
  split
  · exact hst
  · trivial

theorem updateDirty_keeps (b n : Nat) (buffer : List UInt8) :
    Keeps max (fun st => st) (updateDirty device blockSize st b n buffer) := by
  induction n generalizing st b buffer with
  | zero => exact hst
  | succ n ih =>
      rw [updateDirty]
      split
      · simp only
        split
        · trivial
        · split
          · apply ih
            exact hst
          · exact ih hst _ _
      · exact ih hst _ _

theorem readSmall_keeps (b n : Nat) (done buffer : List UInt8) :
    Keeps max Prod.fst (readSmall dv device blockSize fuel st b n done buffer) := by
  induction fuel generalizing st b n done buffer with
  | zero =>
      cases n with
      | zero => exact hst
      | succ n => trivial
  | succ fuel ih =>
      cases n with
      | zero => exact hst
      | succ n =>
          rw [readSmall]
          split
          · split
            · trivial
            · exact (touch_keeps hst _).bind fun st₁ hst₁ => ih hst₁ _ _ _ _
          · refine (readBlocks_keeps hst b _ buffer).bind ?_
            intro r hst₁
            simp only
            split
            · exact hst₁
            · refine (getBlocks_keeps hst₁ _).bind ?_
              intro r' hst₂
              split
              · exact hst₂
              · exact ih hst₂ _ _ _ _

theorem cachedRead_keeps (b n : Nat) (buffer : List UInt8) :
    Keeps max Prod.fst (cachedRead dv fuel st device b buffer n blockSize) := by
  unfold cachedRead
  split
  · refine (readBlocks_keeps hst b n buffer).bind ?_
    intro r hst₁
    exact (updateDirty_keeps hst₁ b n r.1.1).map fun st₂ hst₂ => hst₂
  · exact (readSmall_keeps hst b n [] buffer).map fun r hr => hr

theorem entryFor_keeps (b : Nat) : Keeps max Prod.fst (entryFor fuel st device b blockSize) := by
  unfold entryFor
  split
  · split
    · trivial
    · exact hst
  · refine (getBlocks_keeps hst 1).bind ?_
    intro r hst₁
    simp only
    split
    · exact hst₁
    · exact hst₁

theorem fill_keeps (id b : Nat) (data : List UInt8) :
    Keeps max (fun st => st) (fill st id device b data) := by
  unfold fill
  split
  · exact hst
  · trivial

theorem writeLoop_keeps (b n : Nat) (buffer : List UInt8) :
    Keeps max (fun st => st) (writeLoop fuel device blockSize st b n buffer) := by
  induction n generalizing st b buffer with
  | zero => exact hst
  | succ n ih =>
      rw [writeLoop]
      refine (entryFor_keeps hst b).bind fun r hst₁ => ?_
      exact (fill_keeps hst₁ r.2 b _).bind fun st₂ hst₂ => ih hst₂ _ _

theorem flushLoop_keeps (dev : Nat) (blk : Option Nat) :
    Keeps max Prod.fst (flushLoop dv dev fuel st blk) := by
  induction fuel generalizing st blk with
  | zero =>
      cases blk with
      | none => exact hst
      | some id => trivial
  | succ fuel ih =>
      cases blk with
      | none => exact hst
      | some id =>
          rw [flushLoop]
          simp only
          split
          · exact ih hst _
          · unfold writeBlocks
            split
            · show Keeps max Prod.fst (if _ then _ else _)
              split
              · exact hst
              · apply ih
                exact hst
            · trivial

theorem step_keeps {c : SharedCall} (hstep : step dv fuel st c = some st') :
    st'.maxBlocks = max := by
  cases c with
  | read device b buffer n size =>
      exact Ends.ended ((cachedRead_keeps hst b n.toNat buffer).map fun r hr => hr) hstep
  | write device b data n size =>
      have hwrite : Keeps max Prod.fst
          (cachedWrite fuel st device b data n.toNat size.toNat) :=
        (writeLoop_keeps hst b n.toNat data).map fun _ hr => hr
      exact Ends.ended (hwrite.map fun r hr => hr) hstep
  | flush dev =>
      exact Ends.ended ((flushLoop_keeps hst dev _).map fun r hr => hr) hstep

theorem run_keeps {cs : List SharedCall} (hrun : run dv fuel st cs = some st') :
    st'.maxBlocks = max := by
  induction cs generalizing st with
  | nil =>
      cases hrun
      exact hst
  | cons c cs ih =>
      obtain ⟨st₁, hstep, hrun⟩ := Option.bind_eq_some_iff.mp hrun
      exact ih (step_keeps hst hstep) hrun

end Keeps

/-! ## §7. All requests. -/

/-- A state that calls lead to, of a cache that was made for so many blocks. -/
def Reachable (dv : Devices δ) (nBlocks : UInt64) (disk : δ) (st : SharedCache δ) : Prop :=
  ∃ fuel cs, run dv fuel (new nBlocks.toNat disk) cs = some st

/-- **Which requests come to an end**, in any state that calls lead to and for a device that works:
`get_blocks` where the map has room for all blocks, `cached_write` where every block can be
written, `cached_read` where the read can be done. -/
theorem requests_finish_iff (dv : Devices δ) (nBlocks : UInt64) (disk : δ) (st : SharedCache δ)
    (device : Nat) (b n blockSize : UInt64) (hpos : 1 ≤ nBlocks.toNat)
    (hreach : Reachable dv nBlocks disk st) (hn : n.toNat ≤ nBlocks.toNat)
    (hwork : Working dv device blockSize.toNat n.toNat) :
    ((Finishes fun fuel => getBlocks fuel st n.toNat blockSize.toNat) ↔
        st.cache.size + n.toNat ≤ st.maxBlocks) ∧
      (∀ data,
        (Finishes fun fuel => cachedWrite fuel st device b.toNat data n.toNat blockSize.toNat) ↔
          CanWrite st device b.toNat n.toNat blockSize.toNat) ∧
      (∀ buffer,
        (Finishes fun fuel =>
            cachedRead dv fuel st device b.toNat buffer n.toNat blockSize.toNat) ↔
          CanRead st device b.toNat n.toNat blockSize.toNat) := by
  obtain ⟨fuel, cs, hrun⟩ := hreach
  obtain ⟨xs, hinv⟩ := (inv_new nBlocks.toNat disk).run hrun
  have hkeep : st.maxBlocks = nBlocks.toNat := run_keeps rfl hrun
  have hmax : st.maxBlocks < 2 ^ 64 := hkeep ▸ nBlocks.toNat_lt
  have hle : n.toNat ≤ st.maxBlocks := hkeep ▸ hn
  have hone : 1 ≤ st.maxBlocks := hkeep ▸ hpos
  refine ⟨hinv.getBlocks_finishes_iff hmax hle, fun data => ?_, fun buffer => ?_⟩
  · exact hinv.cachedWrite_finishes_iff hmax hone blockSize.toNat_lt b.toNat_lt n.toNat_lt data
  · exact hinv.cachedRead_finishes_iff hmax b.toNat_lt hle hwork buffer

/-- A device works for requests of whole blocks of it. -/
theorem fileDevices_working {sizes : Nat → Nat} {n : Nat} (hdevice : sizes device ≠ 0)
    (hwhole : blockSize % sizes device = 0) (hpos : 1 ≤ blockSize) (hn : n * blockSize < 2 ^ 64) :
    Working (fileDevices sizes) device blockSize n where
  mapped := bne_iff_ne.mpr hdevice
  reads := by
    intro files b k buffer hk
    have hle : k * blockSize ≤ n * blockSize := Nat.mul_le_mul_right _ hk
    have hbytes : k * blockSize % sizes device = 0 := by
      rw [Nat.mul_mod, hwhole, Nat.mul_zero, Nat.zero_mod]
    show k ≤ ((files device).readBlock (sizes device) b (k * blockSize % 2 ^ 64) buffer).1.2
    rw [Nat.mod_eq_of_lt (hle.trans_lt hn)]
    unfold StorageFile.readBlock
    rw [if_neg (not_not_intro hbytes)]
    exact Nat.le_mul_of_pos_right k hpos

/-- One device, with blocks of 512 bytes. -/
def oneDevice (dev : Nat) : Nat := if dev = 1 then 512 else 0

/-- Files of zeros. -/
def emptyFiles : Nat → StorageFile := fun _ => ⟨⟨fun _ => 0, []⟩, false⟩

theorem oneDevice_working : Working (fileDevices oneDevice) 1 512 1 :=
  fileDevices_working (by decide) (by decide) (by decide) (by decide)

/-- A cache of one block, which is new. -/
theorem requests_finish_new :
    (Finishes fun fuel => getBlocks fuel (new 1 emptyFiles) 1 512) ∧
      (Finishes fun fuel =>
        cachedWrite fuel (new 1 emptyFiles) 1 0 (List.replicate 512 0) 1 512) ∧
      ¬ Finishes fun fuel => cachedRead (fileDevices oneDevice) fuel (new 1 emptyFiles) 1 0
        (List.replicate 512 0) 1 512 := by
  have hall := requests_finish_iff (fileDevices oneDevice) 1 emptyFiles (new 1 emptyFiles) 1 0 1 512
    (by decide) ⟨0, [], rfl⟩ (by decide) oneDevice_working
  refine ⟨hall.1.mpr (by decide), (hall.2.1 _).mpr ?_, fun hread => ?_⟩
  · intro i hi
    obtain rfl : i = 0 := Nat.lt_one_iff.mp hi
    exact Nat.one_pos
  · obtain ⟨id, hid, -⟩ := (hall.2.2 _).mp hread 0 Nat.one_pos
    cases hid

/-- **A cache of one block, which was written**: no request for another block ends. -/
theorem requests_never_end :
    ∃ st, Reachable (fileDevices oneDevice) 1 emptyFiles st ∧
      Working (fileDevices oneDevice) 1 512 1 ∧
      (¬ Finishes fun fuel => getBlocks fuel st 1 512) ∧
      (¬ Finishes fun fuel => cachedWrite fuel st 1 1 (List.replicate 512 0) 1 512) ∧
      ¬ Finishes fun fuel =>
        cachedRead (fileDevices oneDevice) fuel st 1 1 (List.replicate 512 0) 1 512 := by
  -- the one block of the cache is dirty from now on
  obtain ⟨st, hrun⟩ : ∃ st, run (fileDevices oneDevice) 1 (new 1 emptyFiles)
      [.write 1 0 (List.replicate 512 0) 1 512] = some st := ⟨_, rfl⟩
  obtain ⟨xs, hinv⟩ := (inv_new 1 emptyFiles).run hrun
  have hmax : st.maxBlocks = 1 := run_keeps rfl hrun
  have hsize : st.cache.size = 1 := by
    cases hrun
    rfl
  have hlook : st.blockLookup 1 1 = none := by
    cases hrun
    rfl
  have hlt : st.maxBlocks < 2 ^ 64 := by
    rw [hmax]
    decide
  refine ⟨st, ⟨1, _, hrun⟩, oneDevice_working, fun hget => ?_, fun hwrite => ?_, fun hread => ?_⟩
  · -- there is no room for a block beside the dirty one
    have hroom := (hinv.getBlocks_finishes_iff hlt hmax.ge).mp hget
    omega
  · -- block 1 is not cached, so the first turn would need room
    have hgo := (hinv.cachedWrite_finishes_iff hlt hmax.ge (by decide) (by decide) (by decide) _).mp
      hwrite 0 Nat.one_pos
    have hroom : st.cache.size + unmapped st 1 1 0 < st.maxBlocks := by
      unfold Writable at hgo
      rwa [show (1 + 0) % 2 ^ 64 = 1 from rfl, hlook] at hgo
    omega
  · -- block 1 is not cached, and a small read never caches it
    obtain ⟨id, hid, -⟩ := (hinv.cachedRead_finishes_iff hlt (by decide) hmax.ge
      oneDevice_working _).mp hread 0 Nat.one_pos
    rw [show (1 + 0) % 2 ^ 64 = 1 from rfl, hlook] at hid
    cases hid

end SharedCache

end Metta.MettaFs
