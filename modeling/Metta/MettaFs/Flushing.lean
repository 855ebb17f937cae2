/-
  Metta.MettaFs.Flushing — what `flush` brings to the files.

  All that was written is in the cache, since no block of it is ever given away; so
  `flush` comes by every block that was written to the device, and by no other, and
  hands it to the device.  What the device makes of it `flush` does not learn: the
  mapper reports the size of the block also where `write_block` has refused it.

    • `WriteCall`, `lastWrite` — what was written, by the calls alone,
    • `Remembers`, `Remembers.writes` — it is what the cache has,
    • `Inv.flushLoop_stores` — what a flush hands to the device,
    • `Storable`, `flush_persists` — when it is in the file afterwards,
    • `flush_refused` — blocks of another size never get there.
-/
import Metta.MettaFs.Requests

namespace Metta.MettaFs

open Metta.Machine

namespace SharedCache

variable {δ : Type} {dv : Devices δ} {fuel device : Nat} {st st' : SharedCache δ} {xs : List Nat}

/-! ## §1. What was written. -/

/-- A call of `cached_write`; the buffer has as many bytes as the call says. -/
structure WriteCall where
  device : Nat
  blockN : UInt64
  nblocks : UInt64
  blockSize : UInt64
  data : List UInt8
  length_data : data.length = nblocks.toNat * blockSize.toNat

/-- The blocks of a request and what is written to each of them. -/
def blocksOf (device b n blockSize : Nat) (buffer : List UInt8) : List ((Nat × Nat) × List UInt8) :=
  (List.range n).map fun i =>
    ((device, (b + i) % 2 ^ 64), (buffer.drop (i * blockSize)).take blockSize)

def WriteCall.blocks (w : WriteCall) : List ((Nat × Nat) × List UInt8) :=
  blocksOf w.device w.blockN.toNat w.nblocks.toNat w.blockSize.toNat w.data

/-- What a block has after it was written to. -/
def put (last : Nat × Nat → Option (List UInt8)) (p : (Nat × Nat) × List UInt8) :
    Nat × Nat → Option (List UInt8) := Function.update last p.1 (some p.2)

/-- The data that the calls wrote last to a block, nothing for a block that none wrote to. -/
def lastWrite (ws : List WriteCall) : Nat × Nat → Option (List UInt8) :=
  (ws.flatMap WriteCall.blocks).foldl put fun _ => none

/-- The calls, one after the other; all of them return. -/
def writes (fuel : Nat) : SharedCache δ → List WriteCall → Except (Stop δ) (SharedCache δ)
  | st, [] => .ok st
  | st, w :: ws =>
      (cachedWrite fuel st w.device w.blockN.toNat w.data w.nblocks.toNat w.blockSize.toNat).bind
        fun r => writes fuel r.1 ws

theorem blocksOf_succ {b : Nat} (hb : b < 2 ^ 64) (n blockSize : Nat) (buffer : List UInt8) :
    blocksOf device b (n + 1) blockSize buffer = ((device, b), buffer.take blockSize) ::
      blocksOf device ((b + 1) % 2 ^ 64) n blockSize (buffer.drop blockSize) := by
  unfold blocksOf
  rw [List.range_succ_eq_map, List.map_cons, List.map_map, Nat.add_zero, Nat.mod_eq_of_lt hb,
    Nat.zero_mul, List.drop_zero]
  congr 1
  apply List.map_congr_left
  intro i _
  show ((device, (b + (i + 1)) % 2 ^ 64), (buffer.drop ((i + 1) * blockSize)).take blockSize) = _
  rw [block_succ, List.drop_drop, Nat.succ_mul, Nat.add_comm (i * blockSize)]

/-! ## §2. The cache has what was written. -/

/-- The cache has exactly the blocks that were written to, with the data they were written last;
the blocks of a device have one size. -/
structure Remembers (st : SharedCache δ) (last : Nat × Nat → Option (List UInt8))
    (size : Nat → Nat) : Prop where
  inv : ∃ xs, Inv st xs
  cached : ∀ k data, last k = some data → ∃ id, st.cache.find k = some (some id) ∧
    (st.entries id).blockSize = size k.1 ∧ (st.entries id).data = data
  nothing : ∀ k, last k = none → st.cache.find k = none
  length : ∀ k data, last k = some data → data.length = size k.1

theorem remembers_new (nBlocks : Nat) (disk : δ) (size : Nat → Nat) :
    Remembers (new nBlocks disk) (fun _ => none) size where
  inv := ⟨[], inv_new nBlocks disk⟩
  cached k data h := by cases h
  nothing k h := rfl
  length k data h := by cases h

/-- One block. -/
theorem Remembers.written {last : Nat × Nat → Option (List UInt8)} {size : Nat → Nat} {b : Nat}
    {data : List UInt8} (h : Remembers st last size)
    (hwritten : Written st st' device b (size device) data) (hlength : data.length = size device) :
    Remembers st' (put last ((device, b), data)) size := by
  refine ⟨hwritten.inv, ?_, ?_, ?_⟩
  · intro k data' hk
    unfold put at hk
    by_cases hkey : k = (device, b)
    · subst hkey
      rw [Function.update_self] at hk
      cases hk
      exact hwritten.found
    · rw [Function.update_of_ne hkey] at hk
      obtain ⟨hfind, hentries⟩ := hwritten.others k hkey
      obtain ⟨id, hid, hdata⟩ := h.cached k data' hk
      refine ⟨id, hfind.trans hid, ?_⟩
      rw [hentries id hid]
      exact hdata
  · intro k hk
    unfold put at hk
    by_cases hkey : k = (device, b)
    · subst hkey
      rw [Function.update_self] at hk
      cases hk
    · rw [Function.update_of_ne hkey] at hk
      exact (hwritten.others k hkey).1.trans (h.nothing k hk)
  · intro k data' hk
    unfold put at hk
    by_cases hkey : k = (device, b)
    · subst hkey
      rw [Function.update_self] at hk
      cases hk
      exact hlength
    · rw [Function.update_of_ne hkey] at hk
      exact h.length k data' hk

/-- A block that `cached_write` has found an entry for could be written. -/
theorem Inv.writable_of_ok (h : Inv st xs) {b blockSize : Nat} {r : SharedCache δ × Nat}
    (hok : SharedCache.entryFor fuel st device b blockSize = .ok r) :
    Writable st device blockSize st.cache.size b := by
  unfold SharedCache.entryFor at hok
  unfold Writable
  cases hlook : st.blockLookup device b with
  | some id =>
      rw [hlook] at hok
      by_contra hsize
      have hstop : (Except.error .assertion : Except (Stop δ) (SharedCache δ × Nat)) = .ok r :=
        (if_pos hsize).symm.trans hok
      cases hstop
  | none =>
      rw [hlook] at hok
      obtain ⟨r', hget, -⟩ := bind_eq_ok.mp hok
      have hends : Ends _ _ (SharedCache.getBlocks fuel st 1 blockSize) := h.getBlocks 1
      rw [hget] at hends
      exact hends.2

/-- **The loop of `cached_write`**, where it returns. -/
theorem Remembers.writeLoop {last : Nat × Nat → Option (List UInt8)} {size : Nat → Nat} {b n : Nat}
    {buffer : List UInt8} (h : Remembers st last size) (hmax : st.maxBlocks < 2 ^ 64)
    (hsize : size device < 2 ^ 64) (hb : b < 2 ^ 64) (hlength : buffer.length = n * size device)
    (hloop : SharedCache.writeLoop fuel device (size device) st b n buffer = .ok st') :
    Remembers st' ((blocksOf device b n (size device) buffer).foldl put last) size ∧
      st'.maxBlocks = st.maxBlocks ∧ st'.disk = st.disk := by
  induction n generalizing st last b buffer with
  | zero =>
      cases hloop
      exact ⟨h, rfl, rfl⟩
  | succ n ih =>
      rw [writeLoop_succ] at hloop
      obtain ⟨st₁, hturn, hrest⟩ := bind_eq_ok.mp hloop
      obtain ⟨r, hentry, -⟩ := bind_eq_ok.mp hturn
      obtain ⟨xs, hinv⟩ := h.inv
      obtain ⟨st₂, hblock, hwritten⟩ := hinv.write_block hmax hsize (buffer.take (size device))
        (hinv.writable_of_ok hentry)
      have heq : st₁ = st₂ := by
        rw [hblock] at hturn
        exact (Except.ok.inj hturn).symm
      subst heq
      have htake : (buffer.take (size device)).length = size device := by
        rw [List.length_take, hlength, Nat.succ_mul]
        omega
      have hdrop : (buffer.drop (size device)).length = n * size device := by
        rw [List.length_drop, hlength, Nat.succ_mul]
        omega
      obtain ⟨hlast, hmax', hdisk⟩ := ih (h.written hwritten htake) (hwritten.maxBlocks ▸ hmax)
        (Nat.mod_lt _ (by decide)) hdrop hrest
      rw [blocksOf_succ hb, List.foldl_cons]
      exact ⟨hlast, hmax'.trans hwritten.maxBlocks, hdisk.trans hwritten.disk⟩

/-- **Any calls of `cached_write`**, where they return. -/
theorem Remembers.writes {last : Nat × Nat → Option (List UInt8)} {size : Nat → UInt64}
    {ws : List WriteCall} (h : Remembers st last fun d => (size d).toNat)
    (hmax : st.maxBlocks < 2 ^ 64) (hsize : ∀ w ∈ ws, w.blockSize = size w.device)
    (hwrites : SharedCache.writes fuel st ws = .ok st') :
    Remembers st' ((ws.flatMap WriteCall.blocks).foldl put last) (fun d => (size d).toNat) ∧
      st'.disk = st.disk := by
  induction ws generalizing st last with
  | nil =>
      cases hwrites
      exact ⟨h, rfl⟩
  | cons w ws ih =>
      obtain ⟨r, hwrite, hrest⟩ := bind_eq_ok.mp hwrites
      obtain ⟨st₁, hloop, rfl⟩ := map_eq_ok.mp hwrite
      have hw : w.blockSize = size w.device := hsize w List.mem_cons_self
      have hlength := w.length_data
      rw [hw] at hloop hlength
      obtain ⟨h₁, hmax₁, hdisk₁⟩ :=
        h.writeLoop hmax (size w.device).toNat_lt w.blockN.toNat_lt hlength hloop
      obtain ⟨h₂, hdisk₂⟩ := ih h₁ (hmax₁ ▸ hmax)
        (fun w' hw' => hsize w' (List.mem_cons_of_mem _ hw')) hrest
      rw [List.flatMap_cons, List.foldl_append]
      unfold WriteCall.blocks at h₂ ⊢
      rw [hw]
      exact ⟨h₂, hdisk₂.trans hdisk₁⟩

/-! ## §3. What a flush hands to the device. -/

/-- A block of the cache is handed to the device. -/
def store (dv : Devices δ) (st : SharedCache δ) (dev : Nat) (disk : δ) (id : Nat) : δ :=
  let blk := st.entries id
  dv.writeBlock disk dev blk.blockNum (blk.data.take blk.blockSize)

/-- The blocks of the device among those of a list. -/
def blocksOn (st : SharedCache δ) (dev : Nat) (ids : List Nat) : List Nat :=
  ids.filter fun id => (st.entries id).device == dev

/-- After a flush the device was handed its blocks, and the blocks of other devices are as they
were. -/
structure Flushed (dv : Devices δ) (st st' : SharedCache δ) (dev : Nat) (ids : List Nat) : Prop where
  disk : st'.disk = (blocksOn st dev ids).foldl (store dv st dev) st.disk
  entries : st'.entries = st.entries
  find : ∀ k, k.1 ≠ dev → st'.cache.find k = st.cache.find k
  live : ∀ id, (st.entries id).device ≠ dev → st'.live id = st.live id

/-- **The loop of `flush`**, from a block on to the end of the list. -/
theorem Inv.flushLoop_stores {ys zs : List Nat} {dev : Nat} (h : Inv st (ys ++ zs)) :
    Ends (fun _ => False) (fun r => Flushed dv st r.1 dev zs)
      (SharedCache.flushLoop dv dev fuel st zs.head?) := by
  refine Inv.flushLoop_rule (Q := fun zs st st' => Flushed dv st st' dev zs) ?_ ?_ ?_ h
  · exact fun _ => ⟨rfl, rfl, fun _ _ => rfl, fun _ _ => rfl⟩
  · -- the block is written out and taken off the list
    intro st st' ys zs id _ hdev hr
    have hblocks : blocksOn st dev (id :: zs) = id :: blocksOn st dev zs :=
      List.filter_cons_of_pos (beq_iff_eq.mpr hdev)
    refine ⟨?_, hr.entries, ?_, ?_⟩
    · rw [hblocks, List.foldl_cons]
      exact hr.disk
    · -- the key of the block is the only one that changes
      intro k hk
      rw [hr.find k hk]
      show (st.cache.assign (dev, (st.entries id).blockNum) none).find k = st.cache.find k
      have hne : (dev, (st.entries id).blockNum) ≠ k := fun heq => hk (heq ▸ rfl)
      rw [UnorderedMap.find_assign, if_neg hne]
    · -- and the block the only one that is freed
      intro j hj
      rw [hr.live j hj]
      show Function.update st.live id false j = st.live j
      have hne : j ≠ id := fun heq => hj (heq ▸ hdev)
      rw [Function.update_of_ne hne]
  · -- a block of another device is passed by
    intro st st' zs id hdev hr
    have hblocks : blocksOn st dev (id :: zs) = blocksOn st dev zs :=
      List.filter_cons_of_neg fun heq => hdev (beq_iff_eq.mp heq)
    exact ⟨hblocks ▸ hr.disk, hr.entries, hr.find, hr.live⟩

/-- **`flush`**. -/
theorem Inv.flush_stores (h : Inv st xs) (dev : Nat) :
    Ends (fun _ => False) (fun r => Flushed dv st r.1 dev xs) (SharedCache.flush dv fuel st dev) := by
  unfold SharedCache.flush
  rw [h.holds.lru_eq]
  have h' : Inv st ([] ++ xs) := h
  exact h'.flushLoop_stores

/-! ## §4. What comes to the file. -/

section Files

variable {sizes : Nat → Nat} {files : Nat → StorageFile} {dev : Nat} {ids : List Nat}
  {st : SharedCache (Nat → StorageFile)}

/-- The place of a block in the file of its device. -/
def place (sizes : Nat → Nat) (st : SharedCache δ) (dev id : Nat) : Nat :=
  (st.entries id).blockNum * sizes dev

/-- What is written there. -/
def content (st : SharedCache δ) (id : Nat) : List UInt8 :=
  (st.entries id).data.take (st.entries id).blockSize

/-- Only the file of the device changes. -/
theorem foldl_store_other (ids : List Nat) (files : Nat → StorageFile) {d : Nat} (hd : d ≠ dev) :
    (ids.foldl (store (fileDevices sizes) st dev) files) d = files d := by
  induction ids generalizing files with
  | nil => rfl
  | cons id ids ih =>
      rw [List.foldl_cons, ih]
      exact Function.update_of_ne hd _ _

/-- Blocks that the device takes are all written to their places. -/
theorem foldl_store_bytes (ids : List Nat) (files : Nat → StorageFile)
    (hgood : (files dev).failed = false)
    (htaken : ∀ id ∈ ids, (content st id).length % sizes dev = 0 ∧
      place sizes st dev id + (content st id).length < 2 ^ 63) :
    ((ids.foldl (store (fileDevices sizes) st dev) files) dev).bytes =
      writeAll (place sizes st dev) (content st) (files dev).bytes ids := by
  induction ids generalizing files with
  | nil => rfl
  | cons id ids ih =>
      obtain ⟨hwhole, hfits⟩ := htaken id List.mem_cons_self
      have hfile : store (fileDevices sizes) st dev files id dev =
          { files dev with
            bytes := (files dev).bytes.write (place sizes st dev id) (content st id) } := by
        show Function.update files dev _ dev = _
        rw [Function.update_self]
        exact StorageFile.writeBlock_eq hgood hwhole hfits
      rw [List.foldl_cons, ih, hfile]
      · rfl
      · rw [hfile]
        exact hgood
      · exact fun j hj => htaken j (List.mem_cons_of_mem _ hj)

/-- Blocks that the device refuses leave its file as it is. -/
theorem foldl_store_refused (ids : List Nat) (files : Nat → StorageFile)
    (hrefused : ∀ id ∈ ids, (content st id).length % sizes dev ≠ 0) :
    (ids.foldl (store (fileDevices sizes) st dev) files) dev = files dev := by
  induction ids generalizing files with
  | nil => rfl
  | cons id ids ih =>
      rw [List.foldl_cons, ih _ fun j hj => hrefused j (List.mem_cons_of_mem _ hj)]
      show Function.update files dev _ dev = files dev
      rw [Function.update_self]
      exact StorageFile.writeBlock_refused (hrefused id List.mem_cons_self)

end Files

/-! ## §5. Flushing what was written. -/

/-- The blocks of the device that were written to can be stored: the stream of its file is good,
they are made of whole blocks of the device, they end before the last position of a file, and none
reaches into the next one. -/
structure Storable (sizes : Nat → Nat) (files : Nat → StorageFile) (ws : List WriteCall)
    (dev size : Nat) : Prop where
  good : (files dev).failed = false
  whole : size % sizes dev = 0
  fits : ∀ b, (lastWrite ws (dev, b)).isSome → b * sizes dev + size < 2 ^ 63
  apart : ∀ b c, (lastWrite ws (dev, b)).isSome → (lastWrite ws (dev, c)).isSome → b < c →
    b * sizes dev + size ≤ c * sizes dev

/-- **A flush has persisted everything**: the file of the device has the data that was last written
to each of its blocks, at the place of the block, and is as it was elsewhere; the files of other
devices are as they were, and their blocks are in the cache as they were. -/
structure Persisted (sizes : Nat → Nat) (files : Nat → StorageFile) (ws : List WriteCall) (dev : Nat)
    (st st' : SharedCache (Nat → StorageFile)) : Prop where
  stored : ∀ b data, lastWrite ws (dev, b) = some data →
    HasBytes (st'.disk dev).bytes (b * sizes dev) data
  elsewhere : ∀ a, (∀ b data, lastWrite ws (dev, b) = some data →
      a < b * sizes dev ∨ b * sizes dev + data.length ≤ a) →
    (st'.disk dev).bytes.byte a = (files dev).bytes.byte a
  others : ∀ d, d ≠ dev → st'.disk d = files d
  kept : ∀ d b id, d ≠ dev → st.blockLookup d b = some id →
    st'.blockLookup d b = some id ∧ st'.entries id = st.entries id ∧ st'.live id = true ∧
      ∃ ys, st'.blocks.Holds ys ∧ id ∈ ys

section Flush

variable {sizes : Nat → Nat} {files : Nat → StorageFile} {dev : Nat} {ids : List Nat}
  {size : Nat → Nat} {last : Nat × Nat → Option (List UInt8)}

/-- The blocks of a device that the cache has are those that were written to. -/
theorem Remembers.on_list (h : Remembers st last size) (hinv : Inv st xs) {id : Nat} :
    id ∈ blocksOn st dev xs → (st.entries id).device = dev ∧
      last (dev, (st.entries id).blockNum) = some (content st id) ∧
      (content st id).length = size dev := by
  intro hid
  obtain ⟨hmem, hdev⟩ := List.mem_filter.mp hid
  have hdev := beq_iff_eq.mp hdev
  have hfind := hinv.find id hmem
  rw [key, hdev] at hfind
  cases hlast : last (dev, (st.entries id).blockNum) with
  | none =>
      rw [h.nothing _ hlast] at hfind
      cases hfind
  | some data =>
      obtain ⟨id', hid', hsize, hdata⟩ := h.cached _ data hlast
      rw [hfind] at hid'
      cases hid'
      have hlength := h.length _ data hlast
      have hcontent : content st id = data := by
        unfold content
        rw [hsize, hdata, ← hlength, List.take_length]
      rw [hcontent]
      exact ⟨hdev, rfl, hlength⟩

theorem Remembers.mem_blocksOn (h : Remembers st last size) (hinv : Inv st xs) {b : Nat}
    {data : List UInt8} (hlast : last (dev, b) = some data) :
    ∃ id ∈ blocksOn st dev xs, (st.entries id).blockNum = b ∧ content st id = data := by
  obtain ⟨id, hid, hsize, hdata⟩ := h.cached _ data hlast
  obtain ⟨hmem, hkey⟩ := hinv.listed _ id hid
  obtain ⟨hdev, hblock⟩ := Prod.mk.inj hkey
  refine ⟨id, List.mem_filter.mpr ⟨hmem, beq_iff_eq.mpr hdev⟩, hblock, ?_⟩
  unfold content
  rw [hsize, hdata, ← h.length _ data hlast, List.take_length]

/-- Different blocks of a device have different numbers. -/
theorem Inv.blockNum_inj (h : Inv st xs) {id j : Nat} (hid : id ∈ blocksOn st dev xs)
    (hj : j ∈ blocksOn st dev xs) (heq : (st.entries id).blockNum = (st.entries j).blockNum) :
    id = j := by
  obtain ⟨hmem, hdev⟩ := List.mem_filter.mp hid
  obtain ⟨hmem', hdev'⟩ := List.mem_filter.mp hj
  have hkey : key (st.entries id) = key (st.entries j) :=
    Prod.ext ((beq_iff_eq.mp hdev).trans (beq_iff_eq.mp hdev').symm) heq
  have hfind := h.find id hmem
  rw [hkey, h.find j hmem'] at hfind
  exact (Option.some.inj (Option.some.inj hfind)).symm

/-- The blocks of the device are apart in its file, and it takes them. -/
theorem Remembers.storable {ws : List WriteCall} {st : SharedCache (Nat → StorageFile)}
    (h : Remembers st (lastWrite ws) size) (hinv : Inv st xs)
    (hstore : Storable sizes files ws dev (size dev)) :
    (∀ id ∈ blocksOn st dev xs, (content st id).length % sizes dev = 0 ∧
      place sizes st dev id + (content st id).length < 2 ^ 63) ∧
    (blocksOn st dev xs).Pairwise fun id j =>
      place sizes st dev id + (content st id).length ≤ place sizes st dev j ∨
        place sizes st dev j + (content st j).length ≤ place sizes st dev id := by
  constructor
  · intro id hid
    obtain ⟨-, hlast, hlength⟩ := h.on_list hinv hid
    rw [hlength]
    exact ⟨hstore.whole, hstore.fits _ (Option.isSome_of_eq_some hlast)⟩
  · apply (hinv.holds.nodup.filter _).pairwise_of_forall_ne
    intro id hid j hj hne
    obtain ⟨-, hlast, hlength⟩ := h.on_list hinv hid
    obtain ⟨-, hlast', hlength'⟩ := h.on_list hinv hj
    have hsome := Option.isSome_of_eq_some hlast
    have hsome' := Option.isSome_of_eq_some hlast'
    rw [hlength, hlength']
    rcases Nat.lt_trichotomy (st.entries id).blockNum (st.entries j).blockNum with hlt | heq | hlt
    · exact .inl (hstore.apart _ _ hsome hsome' hlt)
    · exact absurd (hinv.blockNum_inj hid hj heq) hne
    · exact .inr (hstore.apart _ _ hsome' hsome hlt)

end Flush

/-- The blocks of other devices stay in the cache. -/
theorem Flushed.kept {dev d b id : Nat} (h : Flushed dv st st' dev xs) (hinv : Inv st xs)
    (hinv' : ∃ ys, Inv st' ys) (hd : d ≠ dev) (hlook : st.blockLookup d b = some id) :
    st'.blockLookup d b = some id ∧ st'.entries id = st.entries id ∧ st'.live id = true ∧
      ∃ ys, st'.blocks.Holds ys ∧ id ∈ ys := by
  obtain ⟨hmem, hkey⟩ := hinv.lookup hlook
  obtain ⟨ys, hinv'⟩ := hinv'
  have hlook' : st'.blockLookup d b = some id := by
    unfold blockLookup
    rw [h.find (d, b) hd]
    exact hlook
  have hdev : (st.entries id).device ≠ dev := fun heq => hd ((congrArg Prod.fst hkey).symm.trans heq)
  exact ⟨hlook', congrFun h.entries id, (h.live id hdev).trans (hinv.live id hmem),
    ys, hinv'.holds, (hinv'.lookup hlook').1⟩

/-- The state that calls of `cached_write` on a new cache lead to. -/
theorem writes_remembers {nBlocks : UInt64} {disk : δ} {size : Nat → UInt64} {ws : List WriteCall}
    (hsize : ∀ w ∈ ws, w.blockSize = size w.device)
    (hwrites : writes fuel (new nBlocks.toNat disk) ws = .ok st) :
    Remembers st (lastWrite ws) (fun d => (size d).toNat) ∧ st.disk = disk :=
  (remembers_new nBlocks.toNat disk _).writes nBlocks.toNat_lt hsize hwrites

/-- What a flush that returns has done. -/
theorem Inv.flushed (h : Inv st xs) {dev : Nat} {r : SharedCache δ × Bool}
    (hflush : SharedCache.flush dv fuel st dev = .ok r) :
    Flushed dv st r.1 dev xs ∧ ∃ ys, Inv r.1 ys := by
  have hstores : Ends _ _ (SharedCache.flush dv fuel st dev) := h.flush_stores dev
  have hinv : Ends _ _ (SharedCache.flush dv fuel st dev) := h.flush dev
  rw [hflush] at hstores hinv
  exact ⟨hstores, hinv.1⟩

/-- **`flush` persists everything** that was written to the device, when the blocks that were written
to it can be stored. -/
theorem flush_persists (sizes : Nat → Nat) (files : Nat → StorageFile) (nBlocks : UInt64)
    (ws : List WriteCall) (size : Nat → UInt64) (dev fuel fuel' : Nat)
    (st st' : SharedCache (Nat → StorageFile)) (hsize : ∀ w ∈ ws, w.blockSize = size w.device)
    (hwrites : writes fuel (new nBlocks.toNat files) ws = .ok st)
    (hstore : Storable sizes files ws dev (size dev).toNat)
    (hflush : flush (fileDevices sizes) fuel' st dev = .ok (st', true)) :
    Persisted sizes files ws dev st st' := by
  obtain ⟨hremembers, hdisk⟩ := writes_remembers hsize hwrites
  obtain ⟨xs, hinv⟩ := hremembers.inv
  obtain ⟨hflushed, hinv'⟩ := hinv.flushed hflush
  obtain ⟨htaken, hapart⟩ := hremembers.storable hinv hstore
  have hbytes : (st'.disk dev).bytes =
      writeAll (place sizes st dev) (content st) (files dev).bytes (blocksOn st dev xs) := by
    rw [hflushed.disk, hdisk]
    exact foldl_store_bytes _ _ hstore.good htaken
  refine ⟨?_, ?_, ?_, fun d b id hd hlook => hflushed.kept hinv hinv' hd hlook⟩
  · -- a block that was written to is still on the list, so the flush comes by it
    intro b data hlast
    obtain ⟨id, hid, rfl, rfl⟩ := hremembers.mem_blocksOn hinv hlast
    rw [hbytes]
    exact hasBytes_writeAll (place sizes st dev) (content st) _ hapart hid
  · -- the flush writes to no places but those of written blocks
    intro a helse
    rw [hbytes]
    apply byte_writeAll
    intro id hid
    obtain ⟨-, hlast, -⟩ := hremembers.on_list hinv hid
    exact helse _ _ hlast
  · intro d hd
    rw [hflushed.disk, foldl_store_other _ _ hd, hdisk]

/-- **Blocks that are not whole blocks of the device** never get to its file, and `flush` does not
notice. -/
theorem flush_refused (sizes : Nat → Nat) (files : Nat → StorageFile) (nBlocks : UInt64)
    (ws : List WriteCall) (size : Nat → UInt64) (dev fuel fuel' : Nat)
    {st st' : SharedCache (Nat → StorageFile)} (hsize : ∀ w ∈ ws, w.blockSize = size w.device)
    (hwrites : writes fuel (new nBlocks.toNat files) ws = .ok st)
    (hrefused : (size dev).toNat % sizes dev ≠ 0)
    (hflush : flush (fileDevices sizes) fuel' st dev = .ok (st', true)) :
    st'.disk = files := by
  obtain ⟨hremembers, hdisk⟩ := writes_remembers hsize hwrites
  obtain ⟨xs, hinv⟩ := hremembers.inv
  obtain ⟨hflushed, -⟩ := hinv.flushed hflush
  rw [hflushed.disk, hdisk]
  funext d
  by_cases hd : d = dev
  · rw [hd]
    apply foldl_store_refused
    intro id hid
    obtain ⟨-, -, hlength⟩ := hremembers.on_list hinv hid
    rw [hlength]
    exact hrefused
  · exact foldl_store_other _ _ hd

/-! ## §6. Writing with the block size of the device. -/

theorem foldl_put_isSome {ps : List ((Nat × Nat) × List UInt8)}
    {last : Nat × Nat → Option (List UInt8)} {k : Nat × Nat}
    (h : (ps.foldl put last k).isSome) : (last k).isSome ∨ ∃ data, (k, data) ∈ ps := by
  induction ps generalizing last with
  | nil => exact .inl h
  | cons p ps ih =>
      rcases ih h with hput | ⟨data, hmem⟩
      · by_cases hk : k = p.1
        · exact .inr ⟨p.2, hk ▸ List.mem_cons_self⟩
        · unfold put at hput
          rw [Function.update_of_ne hk] at hput
          exact .inl hput
      · exact .inr ⟨data, List.mem_cons_of_mem _ hmem⟩

/-- A block that was written to is one of a call. -/
theorem mem_of_lastWrite {ws : List WriteCall} {dev b : Nat} (h : (lastWrite ws (dev, b)).isSome) :
    ∃ w ∈ ws, w.device = dev ∧ b < w.blockN.toNat + w.nblocks.toNat := by
  rcases foldl_put_isSome h with hnone | ⟨data, hmem⟩
  · cases hnone
  · obtain ⟨w, hw, hblock⟩ := List.mem_flatMap.mp hmem
    obtain ⟨i, hi, heq⟩ := List.mem_map.mp hblock
    obtain ⟨hkey, -⟩ := Prod.mk.inj heq
    obtain ⟨hdevice, hb⟩ := Prod.mk.inj hkey
    have hlt := List.mem_range.mp hi
    have hle : (w.blockN.toNat + i) % 2 ^ 64 ≤ w.blockN.toNat + i := Nat.mod_le _ _
    exact ⟨w, hw, hdevice, by omega⟩

/-- **Blocks of the size of the device** can be stored, when they end before the last position of
a file. -/
theorem storable_of_own_size {sizes : Nat → Nat} {files : Nat → StorageFile} {ws : List WriteCall}
    {dev size : Nat} (hgood : (files dev).failed = false) (hsize : size = sizes dev)
    (hfits : ∀ w ∈ ws, w.device = dev →
      (w.blockN.toNat + w.nblocks.toNat) * sizes dev < 2 ^ 63) :
    Storable sizes files ws dev size := by
  subst hsize
  refine ⟨hgood, Nat.mod_self _, ?_, ?_⟩
  · intro b hb
    obtain ⟨w, hw, hdevice, hlt⟩ := mem_of_lastWrite hb
    have hle : (b + 1) * sizes dev ≤ (w.blockN.toNat + w.nblocks.toNat) * sizes dev :=
      Nat.mul_le_mul_right _ hlt
    rw [Nat.succ_mul] at hle
    exact hle.trans_lt (hfits w hw hdevice)
  · intro b c _ _ hlt
    have hle : (b + 1) * sizes dev ≤ c * sizes dev := Nat.mul_le_mul_right _ hlt
    rwa [Nat.succ_mul] at hle

/-- A block of the device, and a tenth of one. -/
def wholeBlock : WriteCall := ⟨1, 3, 1, 512, List.replicate 512 7, by rw [List.length_replicate]; rfl⟩

def partOfBlock : WriteCall := ⟨1, 3, 1, 51, List.replicate 51 7, by rw [List.length_replicate]; rfl⟩

theorem flush_persists_whole_block :
    ∃ st st', writes 1 (new 256 emptyFiles) [wholeBlock] = .ok st ∧
      flush (fileDevices oneDevice) 1 st 1 = .ok (st', true) ∧
      Persisted oneDevice emptyFiles [wholeBlock] 1 st st' := by
  refine ⟨_, _, rfl, rfl, ?_⟩
  apply flush_persists oneDevice emptyFiles 256 [wholeBlock] (fun _ => 512) 1 1 1
  · intro w hw
    cases List.mem_singleton.mp hw
    rfl
  · rfl
  · apply storable_of_own_size rfl rfl
    intro w hw _
    cases List.mem_singleton.mp hw
    decide
  · rfl

/-- **A tenth of a block is written and flushed**: `flush` returns true, and the file has nothing of
it. -/
theorem flush_loses_part :
    ∃ st st', writes 1 (new 256 emptyFiles) [partOfBlock] = .ok st ∧
      flush (fileDevices oneDevice) 1 st 1 = .ok (st', true) ∧
      ¬ Persisted oneDevice emptyFiles [partOfBlock] 1 st st' := by
  obtain ⟨st, hwrites⟩ : ∃ st, writes 1 (new 256 emptyFiles) [partOfBlock] = .ok st := ⟨_, rfl⟩
  obtain ⟨st', hflush⟩ : ∃ st', flush (fileDevices oneDevice) 1 st 1 = .ok (st', true) := by
    cases hwrites
    exact ⟨_, rfl⟩
  refine ⟨st, st', hwrites, hflush, fun hpersisted => ?_⟩
  have hsize : ∀ w ∈ [partOfBlock], w.blockSize = (fun _ => (51 : UInt64)) w.device := by
    intro w hw
    cases List.mem_singleton.mp hw
    rfl
  have hfiles := flush_refused oneDevice emptyFiles 256 [partOfBlock] (fun _ => 51) 1 1 1 hsize
    hwrites (by decide) hflush
  have hstored := hpersisted.stored 3 (List.replicate 51 7) rfl 0 (by decide)
  rw [hfiles] at hstored
  exact absurd hstored (by decide)

end SharedCache

end Metta.MettaFs
