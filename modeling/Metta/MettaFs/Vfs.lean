/-
  Metta.MettaFs.Vfs — `vfs_t` of mkfs.cpp, the device mapper, and the calls of
  the block cache that are made by bytes.

  `vfs_t` writes at positions of a device; what is written stays in the cache
  until the device is unmounted.  Over all of it stands a plain array of bytes
  for each device.

    • `Vfs`, `mount`, `write`, `unmount` — the calls,
    • `view` — the bytes of a device as they will be once it is unmounted,
    • `mount_view`, `write_view`, `unmount_view` — each call, on the views,
    • `vfs_refines_flat` — any calls, against arrays of bytes,
    • `unmount_leaves_writes` — and what is in the file at the end.

  A name is the address of its string: the mapper compares `const char*`.
-/
import Metta.MettaFs.Flushing

namespace Metta.MettaFs

open Metta.Machine

/-! ## §1. The calls. -/

/-- `vfs_t` with its `block_device_mapper_t` and the cache: `sizes` are the block sizes of the
devices that are mapped, `blockSizes` what the cache was told of them. -/
structure Vfs where
  nextDevice : Nat
  deviceIds : Nat → Nat
  sizes : Nat → Nat
  blockSizes : Nat → Nat
  cache : SharedCache (Nat → StorageFile)

namespace SharedCache

variable {δ : Type}

/-- `byte_write`, with the result of `get_block_size`. -/
def byteWrite (fuel : Nat) (blockSize : Nat) (st : SharedCache δ) (device byteOffset : Nat)
    (data : List UInt8) : Except (Stop δ) (SharedCache δ × Nat) :=
  if blockSize = 0 then .error .assertion
  else if byteOffset % blockSize ≠ 0 then .error .assertion
  else if data.length % blockSize ≠ 0 then .error .assertion
  else cachedWrite fuel st device (byteOffset / blockSize) data (data.length / blockSize) blockSize

end SharedCache

namespace Vfs

/-- `vfs_t()`, and `set_cache` with a new `block_cache_t(nBlocks)`. -/
def new (nBlocks : Nat) : Vfs :=
  ⟨0, fun _ => 0, fun _ => 0, fun _ => 0, .new nBlocks fun _ => ⟨⟨fun _ => 0, []⟩, false⟩⟩

/-- `mounted`: `resolve_device`. -/
def mounted (v : Vfs) (name : Nat) : Nat := v.deviceIds name

/-- `mount`, of a device with that block size and file: `map_device`. -/
def mount (v : Vfs) (blockSize : Nat) (file : StorageFile) (name : Nat) : Vfs :=
  let d := v.nextDevice + 1
  { nextDevice := d
    deviceIds := Function.update v.deviceIds name d
    sizes := Function.update v.sizes d blockSize
    blockSizes := Function.update v.blockSizes d blockSize
    cache := { v.cache with disk := Function.update v.cache.disk d file } }

/-- `write`. -/
def write (fuel : Nat) (v : Vfs) (device byteOffset : Nat) (data : List UInt8) :
    Except (Stop (Nat → StorageFile)) (Vfs × Nat) :=
  (v.cache.byteWrite fuel (v.blockSizes device) device byteOffset data).map fun r =>
    ({ v with cache := r.1 }, r.2)

/-- `unmount`: `unmap_device` flushes the cache, whatever comes of it, and closes the device, which
must be good. -/
def unmount (fuel : Nat) (v : Vfs) (name : Nat) : Except (Stop (Nat → StorageFile)) (Vfs × Bool) :=
  let dev := v.mounted name
  if v.sizes dev = 0 then .error .assertion
  else
    (v.cache.flush (fileDevices v.sizes) fuel dev).bind fun r =>
      if (r.1.disk dev).failed then .error .assertion else .ok ({ v with cache := r.1 }, true)

/-! ## §2. What a device will have. -/

/-- Bytes, with data written over them at a position. -/
def patch (bytes : Nat → UInt8) (off : Nat) (data : List UInt8) (a : Nat) : UInt8 :=
  if off ≤ a ∧ a < off + data.length then data.getD (a - off) 0 else bytes a

/-- Data may be written in two parts. -/
theorem patch_split (bytes : Nat → UInt8) (off : Nat) {n : Nat} {data : List UInt8}
    (hn : n ≤ data.length) :
    patch (patch bytes off (data.take n)) (off + n) (data.drop n) = patch bytes off data := by
  funext a
  have htake : (data.take n).length = n := by
    rw [List.length_take]
    omega
  unfold patch
  rw [htake, List.length_drop]
  by_cases hsecond : off + n ≤ a ∧ a < off + n + (data.length - n)
  · rw [if_pos hsecond, if_pos (by omega)]
    simp only [List.getD_eq_getElem?_getD, List.getElem?_drop]
    congr 2
    omega
  · rw [if_neg hsecond]
    by_cases hfirst : off ≤ a ∧ a < off + n
    · rw [if_pos hfirst, if_pos (by omega)]
      simp only [List.getD_eq_getElem?_getD]
      rw [List.getElem?_take_of_lt (by omega)]
    · rw [if_neg hfirst, if_neg (by omega)]

theorem patch_nil (bytes : Nat → UInt8) (off : Nat) : patch bytes off [] = bytes := by
  funext a
  unfold patch
  rw [if_neg]
  show ¬(off ≤ a ∧ a < off + 0)
  omega

/-- The byte at `a` of a device: the one of the cached block, or that of the file. -/
def view (v : Vfs) (d a : Nat) : UInt8 :=
  match v.cache.blockLookup d (a / v.sizes d) with
  | some id => (v.cache.entries id).data.getD (a % v.sizes d) 0
  | none => (v.cache.disk d).bytes.byte a

/-- **The invariant**: the cache is in order and knows the block sizes; what it has are whole
blocks of devices that are mapped, which end before the last position of a file. -/
structure Good (v : Vfs) : Prop where
  cache : ∃ xs, v.cache.Inv xs
  room : v.cache.maxBlocks < 2 ^ 64
  same : v.blockSizes = v.sizes
  mapped : ∀ d, v.nextDevice < d → v.sizes d = 0
  bounded : ∀ d, v.sizes d < 2 ^ 64
  blocks : ∀ d b id, v.cache.blockLookup d b = some id →
    v.sizes d ≠ 0 ∧ (v.cache.entries id).blockSize = v.sizes d ∧
      (v.cache.entries id).data.length = v.sizes d ∧ (b + 1) * v.sizes d < 2 ^ 63

variable {v v' : Vfs} {fuel d dev a b n off blockSize name : Nat} {data buffer : List UInt8}

theorem good_new (nBlocks : UInt64) : (new nBlocks.toNat).Good where
  cache := ⟨[], SharedCache.inv_new _ _⟩
  room := nBlocks.toNat_lt
  same := rfl
  mapped _ _ := rfl
  bounded _ := by
    show 0 < 2 ^ 64
    decide
  blocks d b id h := by
    have hnone : (new nBlocks.toNat).cache.blockLookup d b = none := rfl
    rw [hnone] at h
    cases h

theorem view_of_some {id : Nat} (h : v.cache.blockLookup d (a / v.sizes d) = some id) :
    v.view d a = (v.cache.entries id).data.getD (a % v.sizes d) 0 := by
  rw [view, h]

theorem view_of_none (h : v.cache.blockLookup d (a / v.sizes d) = none) :
    v.view d a = (v.cache.disk d).bytes.byte a := by
  rw [view, h]

/-- A device that is not mapped has no blocks in the cache. -/
theorem Good.lookup_none (G : Good v) (hd : v.sizes d = 0) (b : Nat) :
    v.cache.blockLookup d b = none := by
  cases h : v.cache.blockLookup d b with
  | none => rfl
  | some id => exact absurd hd (G.blocks d b id h).1

/-! ## §3. Mounting. -/

/-- **Mounting** adds a device with the bytes of its file. -/
theorem mount_view (G : Good v) (file : StorageFile) (name : Nat)
    (hlt : blockSize < 2 ^ 64) :
    (v.mount blockSize file name).Good ∧
      (v.mount blockSize file name).view =
        Function.update v.view (v.nextDevice + 1) file.bytes.byte := by
  have hnew : ∀ b, v.cache.blockLookup (v.nextDevice + 1) b = none :=
    G.lookup_none (G.mapped _ (Nat.lt_succ_self _))
  have hsize : ∀ {d}, d ≠ v.nextDevice + 1 →
      (v.mount blockSize file name).sizes d = v.sizes d := fun h => Function.update_of_ne h ..
  constructor
  · refine ⟨?_, G.room, ?_, ?_, ?_, ?_⟩
    · obtain ⟨xs, hinv⟩ := G.cache
      exact ⟨xs, hinv.disk _⟩
    · show Function.update v.blockSizes _ _ = Function.update v.sizes _ _
      rw [G.same]
    · intro d hd
      have hd' : v.nextDevice + 1 < d := hd
      rw [hsize (by omega)]
      exact G.mapped d (by omega)
    · intro d
      by_cases hd : d = v.nextDevice + 1
      · subst hd
        show Function.update v.sizes _ _ _ < _
        rw [Function.update_self]
        exact hlt
      · rw [hsize hd]
        exact G.bounded d
    · intro d b id hlook
      have hne : d ≠ v.nextDevice + 1 := by
        intro heq
        subst heq
        have hnone : (v.mount blockSize file name).cache.blockLookup (v.nextDevice + 1) b = none :=
          hnew b
        rw [hnone] at hlook
        cases hlook
      rw [hsize hne]
      exact G.blocks d b id hlook
  · funext d a
    by_cases hd : d = v.nextDevice + 1
    · subst hd
      have hnone : (v.mount blockSize file name).cache.blockLookup (v.nextDevice + 1)
          (a / (v.mount blockSize file name).sizes (v.nextDevice + 1)) = none := hnew _
      rw [Function.update_self, view_of_none hnone]
      show (Function.update v.cache.disk _ file _).bytes.byte a = _
      rw [Function.update_self]
    · rw [Function.update_of_ne hd]
      cases hlook : v.cache.blockLookup d (a / v.sizes d) with
      | some id =>
          have hlook' : (v.mount blockSize file name).cache.blockLookup d
              (a / (v.mount blockSize file name).sizes d) = some id := by
            rw [hsize hd]
            exact hlook
          rw [view_of_some hlook, view_of_some hlook', hsize hd]
          rfl
      | none =>
          have hlook' : (v.mount blockSize file name).cache.blockLookup d
              (a / (v.mount blockSize file name).sizes d) = none := by
            rw [hsize hd]
            exact hlook
          rw [view_of_none hlook, view_of_none hlook']
          show (Function.update v.cache.disk _ file d).bytes.byte a = _
          rw [Function.update_of_ne hd]

/-! ## §4. Writing. -/

/-- One block of a device. -/
theorem written_view {st' : SharedCache (Nat → StorageFile)} (G : Good v)
    (h : SharedCache.Written v.cache st' dev b (v.sizes dev) data) (hpos : v.sizes dev ≠ 0)
    (hlength : data.length = v.sizes dev) (hfits : (b + 1) * v.sizes dev < 2 ^ 63) :
    Good { v with cache := st' } ∧ ({ v with cache := st' } : Vfs).view =
      Function.update v.view dev (patch (v.view dev) (b * v.sizes dev) data) := by
  obtain ⟨id, hid, hsize, hdata⟩ := h.found
  have hlook : st'.blockLookup dev b = some id := by
    rw [SharedCache.blockLookup, hid]
    rfl
  have hother : ∀ {d c}, (d, c) ≠ (dev, b) →
      st'.blockLookup d c = v.cache.blockLookup d c ∧
        ∀ id, v.cache.blockLookup d c = some id → st'.entries id = v.cache.entries id := by
    intro d c hne
    obtain ⟨hfind, hentries⟩ := h.others (d, c) hne
    refine ⟨by rw [SharedCache.blockLookup, hfind]; rfl, fun id hid => hentries id ?_⟩
    exact Option.join_eq_some_iff.mp hid
  constructor
  · refine ⟨h.inv, h.maxBlocks ▸ G.room, G.same, G.mapped, G.bounded, ?_⟩
    intro d c j hj
    by_cases hkey : (d, c) = (dev, b)
    · obtain ⟨rfl, rfl⟩ := Prod.mk.inj hkey
      have heq : id = j := by
        have hj' : st'.blockLookup d c = some j := hj
        rw [hlook] at hj'
        exact Option.some.inj hj'
      subst heq
      exact ⟨hpos, hsize, hdata ▸ hlength, hfits⟩
    · have hj' : v.cache.blockLookup d c = some j := (hother hkey).1 ▸ hj
      show v.sizes d ≠ 0 ∧ (st'.entries j).blockSize = _ ∧ (st'.entries j).data.length = _ ∧ _
      rw [(hother hkey).2 j hj']
      exact G.blocks d c j hj'
  · funext d a
    have hdiv : a / v.sizes dev = b ↔ b * v.sizes dev ≤ a ∧ a < b * v.sizes dev + data.length := by
      rw [Nat.div_eq_iff (Nat.pos_of_ne_zero hpos), hlength, Nat.mul_comm]
      omega
    by_cases hkey : (d, a / v.sizes d) = (dev, b)
    · -- the byte is one of the block
      obtain ⟨rfl, hb⟩ := Prod.mk.inj hkey
      have hlook' : ({ v with cache := st' } : Vfs).cache.blockLookup d
          (a / ({ v with cache := st' } : Vfs).sizes d) = some id := by
        show st'.blockLookup d (a / v.sizes d) = some id
        rw [hb]
        exact hlook
      rw [view_of_some hlook', Function.update_self, patch, if_pos (hdiv.mp hb)]
      show (st'.entries id).data.getD (a % v.sizes d) 0 = _
      have hmod : a % v.sizes d = a - b * v.sizes d := by
        rw [← hb, Nat.mod_eq_sub_mul_div, Nat.mul_comm]
      rw [hdata, hmod]
    · have hsame : ({ v with cache := st' } : Vfs).view d a = v.view d a := by
        obtain ⟨hlook', hentries⟩ := hother hkey
        cases hold : v.cache.blockLookup d (a / v.sizes d) with
        | some j =>
            have hnew : ({ v with cache := st' } : Vfs).cache.blockLookup d
                (a / ({ v with cache := st' } : Vfs).sizes d) = some j := hlook'.trans hold
            rw [view_of_some hold, view_of_some hnew]
            show (st'.entries j).data.getD _ 0 = _
            rw [hentries j hold]
        | none =>
            have hnew : ({ v with cache := st' } : Vfs).cache.blockLookup d
                (a / ({ v with cache := st' } : Vfs).sizes d) = none := hlook'.trans hold
            rw [view_of_none hold, view_of_none hnew]
            show (st'.disk d).bytes.byte a = _
            rw [h.disk]
      rw [hsame]
      by_cases hd : d = dev
      · subst hd
        have hnot : ¬(b * v.sizes d ≤ a ∧ a < b * v.sizes d + data.length) := by
          intro hin
          exact hkey (Prod.ext rfl (hdiv.mpr hin))
        rw [Function.update_self, patch, if_neg hnot]
      · rw [Function.update_of_ne hd]

/-- **The loop of `cached_write`**, where it returns. -/
theorem writeLoop_view {st' : SharedCache (Nat → StorageFile)} (G : Good v)
    (hpos : v.sizes dev ≠ 0) (hlength : buffer.length = n * v.sizes dev)
    (hfits : (b + n) * v.sizes dev < 2 ^ 63)
    (hloop : v.cache.writeLoop fuel dev (v.sizes dev) b n buffer = .ok st') :
    Good { v with cache := st' } ∧ ({ v with cache := st' } : Vfs).view =
      Function.update v.view dev (patch (v.view dev) (b * v.sizes dev) buffer) ∧
      st'.disk = v.cache.disk := by
  induction n generalizing v b buffer with
  | zero =>
      cases hloop
      have hnil : buffer = [] := by
        rw [Nat.zero_mul] at hlength
        exact List.eq_nil_of_length_eq_zero hlength
      refine ⟨G, ?_, rfl⟩
      rw [hnil, patch_nil, Function.update_eq_self]
  | succ n ih =>
      rw [SharedCache.writeLoop_succ] at hloop
      obtain ⟨st₁, hturn, hrest⟩ := bind_eq_ok.mp hloop
      obtain ⟨r, hentry, -⟩ := bind_eq_ok.mp hturn
      obtain ⟨xs, hinv⟩ := G.cache
      obtain ⟨st₂, hblock, hwritten⟩ := hinv.write_block G.room (G.bounded dev)
        (buffer.take (v.sizes dev)) (hinv.writable_of_ok hentry)
      have heq : st₁ = st₂ := by
        rw [hblock] at hturn
        exact (Except.ok.inj hturn).symm
      subst heq
      -- this block, and then the blocks behind it
      have htake : (buffer.take (v.sizes dev)).length = v.sizes dev := by
        rw [List.length_take, hlength, Nat.succ_mul]
        omega
      have hle : v.sizes dev ≤ buffer.length := by
        rw [hlength, Nat.succ_mul]
        omega
      have hend : (b + 1) * v.sizes dev ≤ (b + (n + 1)) * v.sizes dev :=
        Nat.mul_le_mul_right _ (by omega)
      obtain ⟨G₁, hview₁⟩ := written_view G hwritten hpos htake (by omega)
      have hb : (b + 1) % 2 ^ 64 = b + 1 := by
        have hle' : (b + 1) * 1 ≤ (b + 1) * v.sizes dev :=
          Nat.mul_le_mul_left _ (Nat.one_le_iff_ne_zero.mpr hpos)
        exact Nat.mod_eq_of_lt (by omega)
      rw [hb] at hrest
      have hfits₁ : (b + 1 + n) * v.sizes dev < 2 ^ 63 := by
        rw [Nat.add_right_comm]
        exact hfits
      have hdrop : (buffer.drop (v.sizes dev)).length = n * v.sizes dev := by
        rw [List.length_drop, hlength, Nat.succ_mul]
        omega
      obtain ⟨G₂, hview₂, hdisk⟩ := ih G₁ hpos hdrop hfits₁ hrest
      refine ⟨G₂, ?_, hdisk.trans hwritten.disk⟩
      have hnext : (b + 1) * v.sizes dev = b * v.sizes dev + v.sizes dev := Nat.succ_mul ..
      refine hview₂.trans ?_
      rw [hview₁, Function.update_idem, Function.update_self]
      show Function.update v.view dev (patch (patch (v.view dev) (b * v.sizes dev)
        (buffer.take (v.sizes dev))) ((b + 1) * v.sizes dev) (buffer.drop (v.sizes dev))) = _
      rw [hnext, patch_split _ _ hle]

/-- **Writing** puts the data at its position of the device. -/
theorem write_view (G : Good v) (hfits : off + data.length < 2 ^ 63)
    (hwrite : v.write fuel dev off data = .ok (v', n)) :
    Good v' ∧ v'.view = Function.update v.view dev (patch (v.view dev) off data) ∧
      n = data.length ∧ v'.sizes = v.sizes ∧ v'.nextDevice = v.nextDevice ∧
      v'.deviceIds = v.deviceIds ∧ v'.cache.disk = v.cache.disk := by
  obtain ⟨r, hbytes, hv'⟩ := map_eq_ok.mp hwrite
  unfold SharedCache.byteWrite at hbytes
  rw [G.same] at hbytes
  split at hbytes
  · cases hbytes
  · next hpos =>
    split at hbytes
    · cases hbytes
    · next hoff =>
      split at hbytes
      · cases hbytes
      · next hlen =>
        obtain ⟨st, hloop, rfl⟩ := map_eq_ok.mp hbytes
        cases hv'
        have hoff' : off / v.sizes dev * v.sizes dev = off :=
          Nat.div_mul_cancel (Nat.dvd_of_mod_eq_zero (not_not.mp hoff))
        have hlen' : data.length / v.sizes dev * v.sizes dev = data.length :=
          Nat.div_mul_cancel (Nat.dvd_of_mod_eq_zero (not_not.mp hlen))
        have hend : (off / v.sizes dev + data.length / v.sizes dev) * v.sizes dev < 2 ^ 63 := by
          rw [Nat.add_mul, hoff', hlen']
          exact hfits
        obtain ⟨G', hview, hdisk⟩ := writeLoop_view G hpos hlen'.symm hend hloop
        rw [hoff'] at hview
        refine ⟨G', hview, ?_, rfl, rfl, rfl, hdisk⟩
        show data.length / v.sizes dev * v.sizes dev % 2 ^ 64 = data.length
        rw [hlen']
        exact Nat.mod_eq_of_lt (by omega)

/-- **Writing one block** returns, where the cache has room for one more. -/
theorem write_block_returns (G : Good v) (hpos : v.sizes dev ≠ 0) (hoff : off % v.sizes dev = 0)
    (hlength : data.length = v.sizes dev) (hroom : v.cache.cache.size < v.cache.maxBlocks) :
    ∃ v', (∀ fuel, v.write fuel dev off data = .ok (v', data.length)) ∧
      v'.cache.cache.size ≤ v.cache.cache.size + 1 ∧ v'.cache.maxBlocks = v.cache.maxBlocks := by
  obtain ⟨xs, hinv⟩ := G.cache
  have hgo : SharedCache.Writable v.cache dev (v.sizes dev) v.cache.cache.size
      (off / v.sizes dev) := by
    unfold SharedCache.Writable
    cases hlook : v.cache.blockLookup dev (off / v.sizes dev) with
    | some id => exact (G.blocks dev _ id hlook).2.1
    | none => exact hroom
  obtain ⟨st', hblock, hwritten⟩ := hinv.write_block G.room (G.bounded dev) data hgo
  refine ⟨{ v with cache := st' }, fun fuel => ?_, ?_, hwritten.maxBlocks⟩
  · have hone : data.length / v.sizes dev = 1 := by
      rw [hlength, Nat.div_self (Nat.pos_of_ne_zero hpos)]
    have hwhole : data.length % v.sizes dev = 0 := by
      rw [hlength, Nat.mod_self]
    have hloop : v.cache.writeLoop fuel dev (v.sizes dev) (off / v.sizes dev) 1 data = .ok st' := by
      rw [SharedCache.writeLoop_succ, List.take_of_length_le hlength.le, hblock]
      rfl
    have hcount : 1 * v.sizes dev % 2 ^ 64 = data.length := by
      rw [Nat.one_mul, Nat.mod_eq_of_lt (G.bounded dev), hlength]
    simp only [write, SharedCache.byteWrite, G.same, if_neg hpos, hoff, hwhole, ne_eq,
      not_true_eq_false, if_false, hone, SharedCache.cachedWrite, hloop, Except.map, hcount]
  · show st'.cache.size ≤ _
    rw [hwritten.size]
    split <;> omega

/-! ## §5. Unmounting. -/

/-- The loop of `flush` returns, when its bound is the length of the list. -/
theorem flushLoop_returns {st : SharedCache (Nat → StorageFile)} {sizes : Nat → Nat} {xs ys : List Nat}
    (h : st.Inv (xs ++ ys)) (hdev : sizes dev ≠ 0) (hfuel : ys.length ≤ fuel) :
    ∃ st', SharedCache.flushLoop (fileDevices sizes) dev fuel st ys.head? = .ok (st', true) := by
  induction fuel generalizing st xs ys with
  | zero =>
      have hnil : ys = [] := List.eq_nil_of_length_eq_zero (Nat.le_zero.mp hfuel)
      subst hnil
      exact ⟨st, rfl⟩
  | succ fuel ih =>
      cases ys with
      | nil => exact ⟨st, rfl⟩
      | cons id ys =>
          have hid : id ∈ xs ++ id :: ys := by simp
          have hnext : st.blocks.nextMru id = ys.head? := h.holds.next_eq
          have hlen : ys.length ≤ fuel := Nat.le_of_succ_le_succ hfuel
          simp only [List.head?_cons, SharedCache.flushLoop, h.idle id hid, Bool.false_or, hnext]
          by_cases hdevice : (st.entries id).device = dev
          · have hsize : 1 * (st.entries id).blockSize % 2 ^ 64 = (st.entries id).blockSize := by
              rw [Nat.one_mul, Nat.mod_eq_of_lt (h.sized id hid)]
            have hmapped : (fileDevices sizes).mapped dev = true := bne_iff_ne.mpr hdev
            obtain ⟨hdrop, -⟩ := (h.disk ((fileDevices sizes).writeBlock st.disk dev
              (st.entries id).blockNum ((st.entries id).data.take (st.entries id).blockSize))).drop
                hdevice
            simp only [bne_iff_ne, ne_eq, hdevice, not_true_eq_false, if_false,
              SharedCache.writeBlocks, hmapped, if_true, hsize, Except.bind, hnext]
            exact ih hdrop hlen
          · have h' : st.Inv ((xs ++ [id]) ++ ys) := by rwa [List.append_assoc]
            simp only [bne_iff_ne, ne_eq, hdevice, not_false_eq_true, if_true]
            exact ih h' hlen

/-- Blocks that the device takes leave its stream good. -/
theorem foldl_store_failed {st : SharedCache (Nat → StorageFile)} {sizes : Nat → Nat} (ids : List Nat)
    (files : Nat → StorageFile) (hgood : (files dev).failed = false)
    (htaken : ∀ id ∈ ids, (SharedCache.content st id).length % sizes dev = 0 ∧
      SharedCache.place sizes st dev id + (SharedCache.content st id).length < 2 ^ 63) :
    ((ids.foldl (SharedCache.store (fileDevices sizes) st dev) files) dev).failed = false := by
  induction ids generalizing files with
  | nil => exact hgood
  | cons id ids ih =>
      obtain ⟨hwhole, hfits⟩ := htaken id List.mem_cons_self
      rw [List.foldl_cons]
      apply ih
      · show (Function.update files dev _ dev).failed = false
        rw [Function.update_self]
        show ((files dev).writeBlock (sizes dev) (st.entries id).blockNum
          (SharedCache.content st id)).failed = false
        rw [StorageFile.writeBlock_eq hgood hwhole hfits]
        exact hgood
      · exact fun j hj => htaken j (List.mem_cons_of_mem _ hj)

/-- A block of the list is found under its number, and is a whole block of its device. -/
theorem Good.on_list {xs : List Nat} {id : Nat} (G : Good v) (hinv : v.cache.Inv xs)
    (hid : id ∈ SharedCache.blocksOn v.cache dev xs) :
    v.cache.blockLookup dev (v.cache.entries id).blockNum = some id ∧
      SharedCache.content v.cache id = (v.cache.entries id).data := by
  obtain ⟨hmem, hdevice⟩ := List.mem_filter.mp hid
  have hdevice := beq_iff_eq.mp hdevice
  have hfind := hinv.find id hmem
  rw [SharedCache.key, hdevice] at hfind
  have hlook := Option.join_eq_some_iff.mpr hfind
  obtain ⟨-, hsize, hlength, -⟩ := G.blocks dev _ id hlook
  refine ⟨hlook, ?_⟩
  rw [SharedCache.content, hsize, ← hlength, List.take_length]

/-- **A flush** leaves in the file of the device what its view showed. -/
theorem flush_view (G : Good v) (hmapped : v.sizes dev ≠ 0)
    (hgood : (v.cache.disk dev).failed = false) {xs : List Nat} (hinv : v.cache.Inv xs)
    (hfuel : xs.length ≤ fuel) :
    ∃ st', v.cache.flush (fileDevices v.sizes) fuel dev = .ok (st', true) ∧
      (st'.disk dev).failed = false ∧ (st'.disk dev).bytes.byte = v.view dev ∧
      ∀ d ≠ dev, st'.disk d = v.cache.disk d := by
  have hinv' : v.cache.Inv ([] ++ xs) := hinv
  obtain ⟨st', hloop⟩ := flushLoop_returns hinv' hmapped hfuel
  have hflush : v.cache.flush (fileDevices v.sizes) fuel dev = .ok (st', true) := by
    rw [SharedCache.flush, hinv.holds.lru_eq]
    exact hloop
  obtain ⟨hflushed, -⟩ := hinv.flushed hflush
  -- the blocks of the device are whole, end in time, and lie apart
  have htaken : ∀ id ∈ SharedCache.blocksOn v.cache dev xs,
      (SharedCache.content v.cache id).length % v.sizes dev = 0 ∧
        SharedCache.place v.sizes v.cache dev id + (SharedCache.content v.cache id).length
          < 2 ^ 63 := by
    intro id hid
    obtain ⟨hlook, hcontent⟩ := G.on_list hinv hid
    obtain ⟨-, -, hlength, hfits⟩ := G.blocks dev _ id hlook
    rw [hcontent, hlength, SharedCache.place, ← Nat.succ_mul]
    exact ⟨Nat.mod_self _, hfits⟩
  have hapart : (SharedCache.blocksOn v.cache dev xs).Pairwise fun id j =>
      SharedCache.place v.sizes v.cache dev id + (SharedCache.content v.cache id).length
          ≤ SharedCache.place v.sizes v.cache dev j ∨
        SharedCache.place v.sizes v.cache dev j + (SharedCache.content v.cache j).length
          ≤ SharedCache.place v.sizes v.cache dev id := by
    apply (hinv.holds.nodup.filter _).pairwise_of_forall_ne
    intro id hid j hj hne
    obtain ⟨hlook, hcontent⟩ := G.on_list hinv hid
    obtain ⟨hlook', hcontent'⟩ := G.on_list hinv hj
    obtain ⟨-, -, hlength, -⟩ := G.blocks dev _ id hlook
    obtain ⟨-, -, hlength', -⟩ := G.blocks dev _ j hlook'
    rw [hcontent, hcontent', hlength, hlength', SharedCache.place, SharedCache.place,
      ← Nat.succ_mul, ← Nat.succ_mul]
    rcases Nat.lt_trichotomy (v.cache.entries id).blockNum (v.cache.entries j).blockNum with
      hlt | heq | hlt
    · exact Or.inl (Nat.mul_le_mul_right _ hlt)
    · exact absurd (hinv.blockNum_inj hid hj heq) hne
    · exact Or.inr (Nat.mul_le_mul_right _ hlt)
  refine ⟨st', hflush, ?_, ?_, ?_⟩
  · rw [hflushed.disk]
    exact foldl_store_failed _ _ hgood htaken
  · rw [hflushed.disk, SharedCache.foldl_store_bytes _ _ hgood htaken]
    funext a
    have hsplit : a / v.sizes dev * v.sizes dev + a % v.sizes dev = a := by
      rw [Nat.mul_comm]
      exact Nat.div_add_mod a _
    have hmod : a % v.sizes dev < v.sizes dev := Nat.mod_lt _ (Nat.pos_of_ne_zero hmapped)
    cases hlook : v.cache.blockLookup dev (a / v.sizes dev) with
    | some id =>
        -- the byte is one of a block that is written out
        obtain ⟨hmem, hkey⟩ := hinv.lookup hlook
        obtain ⟨hdevice, hblock⟩ := Prod.mk.inj hkey
        have hid : id ∈ SharedCache.blocksOn v.cache dev xs :=
          List.mem_filter.mpr ⟨hmem, beq_iff_eq.mpr hdevice⟩
        obtain ⟨-, hcontent⟩ := G.on_list hinv hid
        obtain ⟨-, -, hlength, -⟩ := G.blocks dev _ id hlook
        have hin : a % v.sizes dev < (SharedCache.content v.cache id).length := by
          rw [hcontent, hlength]
          exact hmod
        have hbyte := hasBytes_writeAll (SharedCache.place v.sizes v.cache dev)
          (SharedCache.content v.cache) (v.cache.disk dev).bytes hapart hid _ hin
        rw [SharedCache.place, hblock, hsplit] at hbyte
        rw [hbyte, view_of_some hlook]
        simp only [hcontent]
        rw [List.getD_eq_getElem?_getD, List.getElem?_eq_getElem, Option.getD_some]
    | none =>
        rw [view_of_none hlook]
        apply byte_writeAll
        intro id hid
        obtain ⟨hlook', hcontent⟩ := G.on_list hinv hid
        obtain ⟨-, -, hlength, -⟩ := G.blocks dev _ id hlook'
        rw [hcontent, hlength, SharedCache.place, ← Nat.succ_mul]
        by_contra hnot
        have hdiv : a / v.sizes dev = (v.cache.entries id).blockNum := by
          apply Nat.div_eq_of_lt_le
          · exact Nat.le_of_not_lt fun h => hnot (Or.inl h)
          · exact Nat.lt_of_not_le fun h => hnot (Or.inr h)
        rw [hdiv, hlook'] at hlook
        cases hlook
  · intro d hd
    rw [hflushed.disk]
    exact SharedCache.foldl_store_other _ _ hd

/-- **Unmounting** returns, and the file of the device has what its view showed. -/
theorem unmount_view (G : Good v) (hmapped : v.sizes (v.mounted name) ≠ 0)
    (hgood : (v.cache.disk (v.mounted name)).failed = false) :
    ∃ bound, ∀ fuel ≥ bound, ∃ v', v.unmount fuel name = .ok (v', true) ∧
      (v'.cache.disk (v.mounted name)).bytes.byte = v.view (v.mounted name) ∧
      ∀ d ≠ v.mounted name, v'.cache.disk d = v.cache.disk d := by
  obtain ⟨xs, hinv⟩ := G.cache
  refine ⟨xs.length, fun fuel hfuel => ?_⟩
  obtain ⟨st', hflush, hfailed, hbytes, hothers⟩ := flush_view G hmapped hgood hinv hfuel
  refine ⟨{ v with cache := st' }, ?_, hbytes, hothers⟩
  simp only [unmount, if_neg hmapped, hflush, Except.bind, hfailed, Bool.false_eq_true, if_false]

/-! ## §6. Any calls. -/

/-- A call of the file system layer. -/
inductive Call where
  | mount (blockSize : UInt64) (file : StorageFile) (name : Nat)
  | write (device off : Nat) (data : List UInt8)

/-- A call. -/
def exec (fuel : Nat) (v : Vfs) : Call → Except (Stop (Nat → StorageFile)) Vfs
  | .mount blockSize file name => .ok (v.mount blockSize.toNat file name)
  | .write device off data => (v.write fuel device off data).map Prod.fst

/-- Calls, one after the other; all of them return. -/
def run (fuel : Nat) : Vfs → List Call → Except (Stop (Nat → StorageFile)) Vfs
  | v, [] => .ok v
  | v, c :: cs => (v.exec fuel c).bind fun v => run fuel v cs

/-- The data ends before the last position of a file. -/
def Call.Fits : Call → Prop
  | .mount _ _ _ => True
  | .write _ off data => off + data.length < 2 ^ 63

/-- What the calls mean: an array of bytes for each device, beside the files, which stay as they
were mounted. -/
structure Flat where
  devices : Nat
  bytes : Nat → Nat → UInt8
  files : Nat → StorageFile

namespace Flat

/-- No device is there. -/
def empty : Flat := ⟨0, fun _ _ => 0, fun _ => ⟨⟨fun _ => 0, []⟩, false⟩⟩

def exec (s : Flat) : Call → Flat
  | .mount _ file _ =>
      ⟨s.devices + 1, Function.update s.bytes (s.devices + 1) file.bytes.byte,
        Function.update s.files (s.devices + 1) file⟩
  | .write device off data =>
      { s with bytes := Function.update s.bytes device (patch (s.bytes device) off data) }

end Flat

/-- The layer shows the bytes of `s`, and has written none of them out. -/
structure Shows (v : Vfs) (s : Flat) : Prop where
  good : Good v
  devices : v.nextDevice = s.devices
  view : v.view = s.bytes
  disk : v.cache.disk = s.files

/-- **One call**. -/
theorem exec_shows {s : Flat} {c : Call} (h : Shows v s) (hfits : c.Fits)
    (hexec : v.exec fuel c = .ok v') : Shows v' (s.exec c) := by
  cases c with
  | mount blockSize file name =>
      cases hexec
      obtain ⟨hgood, hview⟩ := mount_view h.good file name blockSize.toNat_lt
      refine ⟨hgood, ?_, ?_, ?_⟩
      · show v.nextDevice + 1 = s.devices + 1
        rw [h.devices]
      · rw [hview, h.view, h.devices]
        rfl
      · show Function.update v.cache.disk (v.nextDevice + 1) file = _
        rw [h.disk, h.devices]
        rfl
  | write device off data =>
      obtain ⟨⟨v₁, n⟩, hwrite, rfl⟩ := map_eq_ok.mp hexec
      obtain ⟨hgood, hview, -, -, hnext, -, hdisk⟩ := write_view h.good hfits hwrite
      refine ⟨hgood, hnext.trans h.devices, ?_, hdisk.trans h.disk⟩
      rw [hview, h.view]
      rfl

/-- **The layer over the cache is a plain array of bytes** for each device, under any calls that
return. -/
theorem calls_show {s : Flat} {cs : List Call} (h : Shows v s) (hfits : ∀ c ∈ cs, c.Fits)
    (hrun : run fuel v cs = .ok v') : Shows v' (cs.foldl Flat.exec s) := by
  induction cs generalizing v s with
  | nil =>
      cases hrun
      exact h
  | cons c cs ih =>
      obtain ⟨v₁, hexec, hrest⟩ := bind_eq_ok.mp hrun
      have h₁ := exec_shows h (hfits c List.mem_cons_self) hexec
      exact ih h₁ (fun c' hc' => hfits c' (List.mem_cons_of_mem _ hc')) hrest

theorem new_shows (nBlocks : UInt64) : Shows (new nBlocks.toNat) Flat.empty := by
  refine ⟨good_new nBlocks, rfl, ?_, rfl⟩
  funext d a
  exact view_of_none rfl

/-- **Unmounting leaves what was written**: after any calls that return, a device that is mounted
and good can be unmounted; its file then has every byte as it was written last, or as it was when
the device was mounted, and the other files are as they were mounted. -/
theorem unmount_leaves_writes (nBlocks : UInt64) {cs : List Call} (hfits : ∀ c ∈ cs, c.Fits)
    (hrun : run fuel (new nBlocks.toNat) cs = .ok v) (hmapped : v.sizes (v.mounted name) ≠ 0)
    (hgood : (v.cache.disk (v.mounted name)).failed = false) :
    ∃ bound, ∀ fuel ≥ bound, ∃ v', v.unmount fuel name = .ok (v', true) ∧
      (v'.cache.disk (v.mounted name)).bytes.byte
        = (cs.foldl Flat.exec Flat.empty).bytes (v.mounted name) ∧
      ∀ d ≠ v.mounted name, v'.cache.disk d = (cs.foldl Flat.exec Flat.empty).files d := by
  have h := calls_show (new_shows nBlocks) hfits hrun
  rw [← h.view, ← h.disk]
  exact unmount_view h.good hmapped hgood

/-- A device of blocks of 4 bytes is mounted and written to twice. -/
def fewCalls : List Call :=
  [.mount 4 ⟨⟨fun _ => 9, []⟩, false⟩ 100, .write 1 4 [1, 2, 3, 4, 5, 6, 7, 8],
    .write 1 4 [0, 0, 0, 0]]

theorem unmount_leaves_writes_few :
    ∃ v v', run 8 (new 16) fewCalls = .ok v ∧ v.mounted 100 = 1 ∧
      (∃ fuel, v.unmount fuel 100 = .ok (v', true)) ∧
      (List.range 14).map (v'.cache.disk 1).bytes.byte
        = [9, 9, 9, 9, 0, 0, 0, 0, 5, 6, 7, 8, 9, 9] := by
  obtain ⟨v, hrun⟩ : ∃ v, run 8 (new 16) fewCalls = .ok v := ⟨_, rfl⟩
  have hv : v.mounted 100 = 1 ∧ v.sizes 1 ≠ 0 ∧ (v.cache.disk 1).failed = false := by
    cases hrun
    decide
  obtain ⟨hname, hmapped, hgood⟩ := hv
  have hfits : ∀ c ∈ fewCalls, c.Fits := by
    intro c hc
    rcases List.mem_cons.mp hc with rfl | hc
    · trivial
    rcases List.mem_cons.mp hc with rfl | hc
    · show 4 + 8 < 2 ^ 63
      decide
    · rw [List.mem_singleton.mp hc]
      show 4 + 4 < 2 ^ 63
      decide
  have hmapped' : v.sizes (v.mounted 100) ≠ 0 := by rwa [hname]
  have hgood' : (v.cache.disk (v.mounted 100)).failed = false := by rwa [hname]
  obtain ⟨bound, hbound⟩ := unmount_leaves_writes 16 hfits hrun hmapped' hgood'
  obtain ⟨v', hunmount, hbytes, -⟩ := hbound bound le_rfl
  refine ⟨v, v', hrun, hname, ⟨bound, hunmount⟩, ?_⟩
  rw [hname] at hbytes
  rw [hbytes]
  decide

end Vfs

end Metta.MettaFs
