/-
  Metta.MettaFs.Coherence — what reads through the block cache give.

  Every block of the cache is dirty, for only writes put blocks into it; so a small
  read comes to its end only if all of its blocks are in the cache.  A large read
  asks the device, whose stream is open for output only, and gets nothing: the buffer
  stays as it was.  It is then copied over the dirty blocks, where these should have
  been copied over it.

    • `Request`, `Access`, `accesses` — the calls, all of which return,
    • `lastData`, `expected` — what a read is to give, by the calls alone,
    • `Inv.readSmall_ok`, `updateDirty_same` — the two ways of reading,
    • `Coherent`, `Held` — all reads give it; the buffers of large reads had it before,
    • `coherent_iff` — the two are the same.
-/
import Metta.MettaFs.Flushing

namespace Metta.MettaFs

open Metta.Machine

namespace SharedCache

variable {δ : Type} {dv : Devices δ} {fuel device : Nat} {blockSize : UInt64}
  {st st' : SharedCache δ} {xs : List Nat}

/-! ## §1. The calls. -/

/-- A request for blocks, with a buffer of as many bytes as it says. -/
structure Request (blockSize : UInt64) where
  blockN : UInt64
  nblocks : UInt64
  buffer : List UInt8
  length_buffer : buffer.length = nblocks.toNat * blockSize.toNat

/-- A call of `cached_read` or `cached_write` on a device. -/
inductive Access (blockSize : UInt64) where
  | read (r : Request blockSize)
  | write (r : Request blockSize)

/-- The request is read. -/
def Request.cachedRead (r : Request blockSize) (dv : Devices δ) (fuel device : Nat)
    (st : SharedCache δ) : Except (Stop δ) (SharedCache δ × List UInt8 × Nat) :=
  SharedCache.cachedRead dv fuel st device r.blockN.toNat r.buffer r.nblocks.toNat blockSize.toNat

/-- A call. -/
def access (dv : Devices δ) (fuel device : Nat) (st : SharedCache δ) :
    Access blockSize → Except (Stop δ) (SharedCache δ)
  | .read r => (r.cachedRead dv fuel device st).map fun x => x.1
  | .write r =>
      (cachedWrite fuel st device r.blockN.toNat r.buffer r.nblocks.toNat blockSize.toNat).map
        fun x => x.1

/-- The calls, one after the other; all of them return. -/
def accesses (dv : Devices δ) (fuel device : Nat) :
    SharedCache δ → List (Access blockSize) → Except (Stop δ) (SharedCache δ)
  | st, [] => .ok st
  | st, c :: cs => (access dv fuel device st c).bind fun st => accesses dv fuel device st cs

theorem accesses_append (cs cs' : List (Access blockSize)) :
    accesses dv fuel device st (cs ++ cs') =
      (accesses dv fuel device st cs).bind fun st => accesses dv fuel device st cs' := by
  induction cs generalizing st with
  | nil => rfl
  | cons c cs ih =>
      rw [List.cons_append, accesses, accesses]
      cases access dv fuel device st c with
      | error e => rfl
      | ok st => exact ih

/-- The request is one of those that are read directly. -/
def Request.Large (r : Request blockSize) : Prop :=
  64 * 1024 < r.nblocks.toNat * blockSize.toNat % 2 ^ 64

/-! ## §2. What reads are to give. -/

/-- The blocks that a call writes, and what it writes to them. -/
def Access.blocks (device : Nat) : Access blockSize → List ((Nat × Nat) × List UInt8)
  | .read _ => []
  | .write r => blocksOf device r.blockN.toNat r.nblocks.toNat blockSize.toNat r.buffer

/-- The data that the calls wrote last to a block, nothing for a block that none wrote to. -/
def lastData (device : Nat) (cs : List (Access blockSize)) : Nat × Nat → Option (List UInt8) :=
  (cs.flatMap (Access.blocks device)).foldl put fun _ => none

/-- What the device has at a block. -/
def onDevice (sizes : Nat → Nat) (files : Nat → StorageFile) (device blockSize b : Nat) :
    List UInt8 :=
  (List.range blockSize).map fun i => (files device).bytes.byte (b * sizes device + i)

/-- The data of a block after the calls: what was written last, or what the device has. -/
def current (sizes : Nat → Nat) (files : Nat → StorageFile) (device : Nat)
    (cs : List (Access blockSize)) (b : Nat) : List UInt8 :=
  (lastData device cs (device, b)).getD (onDevice sizes files device blockSize.toNat b)

/-- Blocks from `b` on, one behind the other. -/
def fromBlock (f : Nat → List UInt8) (b n : Nat) : List UInt8 :=
  (List.range n).flatMap fun i => f ((b + i) % 2 ^ 64)

/-- What a read is to give after the calls. -/
def expected (sizes : Nat → Nat) (files : Nat → StorageFile) (device : Nat)
    (before : List (Access blockSize)) (r : Request blockSize) : List UInt8 :=
  fromBlock (current sizes files device before) r.blockN.toNat r.nblocks.toNat

theorem fromBlock_succ {f : Nat → List UInt8} {b : Nat} (hb : b < 2 ^ 64) (n : Nat) :
    fromBlock f b (n + 1) = f b ++ fromBlock f ((b + 1) % 2 ^ 64) n := by
  unfold fromBlock
  rw [List.range_succ_eq_map, List.flatMap_cons, List.flatMap_map, Nat.add_zero,
    Nat.mod_eq_of_lt hb]
  congr 1
  apply List.flatMap_congr
  intro i _
  rw [Nat.succ_eq_add_one, block_succ]

theorem lastData_append (cs : List (Access blockSize)) (c : Access blockSize) :
    lastData device (cs ++ [c]) = (c.blocks device).foldl put (lastData device cs) := by
  unfold lastData
  rw [List.flatMap_append, List.foldl_append, List.flatMap_cons, List.flatMap_nil,
    List.append_nil]

/-! ## §3. The two ways of reading. -/

/-- The data of a block that is in the cache. -/
def cachedData (st : SharedCache δ) (k : Nat × Nat) : Option (List UInt8) :=
  (st.blockLookup k.1 k.2).map fun id => (st.entries id).data

/-- What **a small read that returns** has done: all blocks were in the cache, and nothing but their
order on the list changes. -/
theorem Inv.readSmall_ok (h : Inv st xs) {size b n : Nat} {done buffer out : List UInt8}
    (hb : b < 2 ^ 64)
    (hok : SharedCache.readSmall dv device size fuel st b n done buffer = .ok (st', out)) :
    (∀ i < n, (cachedData st (device, (b + i) % 2 ^ 64)).isSome) ∧
      out = done ++ fromBlock (fun c => (cachedData st (device, c)).getD []) b n ++
        buffer.drop (n * size) ∧
      ∃ blocks ys, st' = { st with blocks := blocks } ∧ Inv st' ys := by
  induction fuel generalizing st xs b n done buffer with
  | zero =>
      cases n with
      | zero =>
          cases hok
          refine ⟨fun i hi => absurd hi (Nat.not_lt_zero i), ?_, _, xs, rfl, h⟩
          show done ++ buffer = done ++ [] ++ buffer.drop (0 * size)
          rw [Nat.zero_mul, List.drop_zero, List.append_nil]
      | succ n => cases hok
  | succ fuel ih =>
      cases n with
      | zero =>
          cases hok
          refine ⟨fun i hi => absurd hi (Nat.not_lt_zero i), ?_, _, xs, rfl, h⟩
          show done ++ buffer = done ++ [] ++ buffer.drop (0 * size)
          rw [Nat.zero_mul, List.drop_zero, List.append_nil]
      | succ n =>
          rw [SharedCache.readSmall] at hok
          cases hlook : st.blockLookup device b with
          | some id =>
              have hdata : cachedData st (device, b) = some (st.entries id).data := by
                show (st.blockLookup device b).map _ = _
                rw [hlook]
                rfl
              simp only [hlook] at hok
              split at hok
              · cases hok
              · obtain ⟨l, ys, htouch, hinv⟩ := h.touch_ok (h.lookup hlook).1
                rw [htouch] at hok
                obtain ⟨hrest, hout, blocks, zs, hst, hinv'⟩ :=
                  ih hinv (Nat.mod_lt _ (by decide)) hok
                refine ⟨?_, ?_, blocks, zs, hst, hinv'⟩
                · rw [forall_blocks (P := fun c => (cachedData st (device, c)).isSome) hb]
                  exact ⟨Option.isSome_of_eq_some hdata, hrest⟩
                · rw [hout, fromBlock_succ hb, hdata, List.drop_drop, Nat.succ_mul,
                    Nat.add_comm (n * size), Option.getD_some]
                  simp only [List.append_assoc]
                  rfl
          | none =>
              -- nothing is put into the map, so the loop comes to the same block again
              simp only [hlook] at hok
              obtain ⟨⟨⟨buffer₁, k⟩, st₁⟩, hread, hok⟩ := bind_eq_ok.mp hok
              have hends : Ends _ _ (SharedCache.readBlocks dv st device b buffer
                (st.stripe device b (n + 1)) size) := h.readBlocks
              rw [hread] at hends
              obtain ⟨h₁, hcache₁⟩ := hends
              simp only at hok
              split at hok
              · cases hok
              · obtain ⟨⟨st₂, ents⟩, hget, hok⟩ := bind_eq_ok.mp hok
                have hends : Ends _ _ (SharedCache.getBlocks fuel st₁
                  (st.stripe device b (n + 1)) size) := h₁.getBlocks _
                rw [hget] at hends
                have hst : st₂ = (st₁.allocate _ size).1 := congrArg Prod.fst hends.1
                simp only at hok
                split at hok
                · cases hok
                · exfalso
                  have h₂ : Inv st₂ xs := hst ▸ h₁.allocate _ _
                  have hcached := (ih h₂ hb hok).1 0 (Nat.succ_pos n)
                  rw [Nat.add_zero, Nat.mod_eq_of_lt hb] at hcached
                  have hlook₂ : st₂.blockLookup device b = none := by
                    rw [hst]
                    show (st₁.cache.find (device, b)).join = none
                    rw [hcache₁]
                    exact hlook
                  unfold cachedData at hcached
                  rw [hlook₂] at hcached
                  cases hcached

/-- **A large read** that has in its buffer what the cache has, changes nothing in the cache. -/
theorem updateDirty_same {f : Nat → List UInt8} {size b n : Nat} (hb : b < 2 ^ 64)
    (hlength : ∀ c, (f c).length = size)
    (hsame : ∀ c id, st.blockLookup device c = some id →
      (st.entries id).blockSize = size ∧ (st.entries id).data = f c) :
    updateDirty device size st b n (fromBlock f b n) = .ok st := by
  induction n generalizing b with
  | zero => rfl
  | succ n ih =>
      have htake : (f b ++ fromBlock f ((b + 1) % 2 ^ 64) n).take size = f b :=
        List.take_left' (hlength b)
      have hdrop : (f b ++ fromBlock f ((b + 1) % 2 ^ 64) n).drop size =
          fromBlock f ((b + 1) % 2 ^ 64) n := List.drop_left' (hlength b)
      have hrest := ih (b := (b + 1) % 2 ^ 64) (Nat.mod_lt _ (by decide))
      rw [updateDirty, fromBlock_succ hb]
      simp only [htake, hdrop]
      cases hlook : st.blockLookup device b with
      | none => exact hrest
      | some id =>
          obtain ⟨hsize, hdata⟩ := hsame b id hlook
          have hupdate : Function.update st.entries id { st.entries id with data := f b } =
              st.entries := by
            rw [← hdata]
            exact Function.update_eq_self id st.entries
          simp only [if_neg (not_not_intro hsize), hupdate]
          split
          · exact hrest
          · exact hrest

section Files

variable {sizes : Nat → Nat} {files : Nat → StorageFile} {st st' : SharedCache (Nat → StorageFile)}
  {r : Request blockSize} {out : List UInt8} {k : Nat}

/-- What the blocks of the device are asked for does not get into the buffer. -/
theorem readBlocks_file {b n size : Nat} {buffer : List UInt8}
    {x : (List UInt8 × Nat) × SharedCache (Nat → StorageFile)}
    (hok : readBlocks (fileDevices sizes) st device b buffer n size = .ok x) :
    x.1.1 = buffer ∧ ∃ disk, x.2 = { st with disk := disk } := by
  unfold readBlocks at hok
  split at hok
  · cases hok
    exact ⟨(StorageFile.readBlock_keeps _).1, _, rfl⟩
  · cases hok

/-- A large request is read directly. -/
theorem Request.Large.cachedRead_eq (hlarge : r.Large) :
    r.cachedRead (fileDevices sizes) fuel device st =
      (readBlocks (fileDevices sizes) st device r.blockN.toNat r.buffer r.nblocks.toNat
        blockSize.toNat).bind fun x =>
          (updateDirty device blockSize.toNat x.2 r.blockN.toNat r.nblocks.toNat x.1.1).map
            fun st => (st, x.1.1, x.1.2) := if_pos hlarge

/-- Another is read block by block. -/
theorem Request.cachedRead_small (hsmall : ¬ r.Large) :
    r.cachedRead (fileDevices sizes) fuel device st =
      (readSmall (fileDevices sizes) device blockSize.toNat fuel st r.blockN.toNat
        r.nblocks.toNat [] r.buffer).map fun x => (x.1, x.2, 0) := if_neg hsmall

/-- **A large read that returns leaves its buffer as it was.** -/
theorem Request.Large.buffer_kept (hlarge : r.Large)
    (hok : r.cachedRead (fileDevices sizes) fuel device st = .ok (st', out, k)) :
    out = r.buffer := by
  rw [hlarge.cachedRead_eq] at hok
  obtain ⟨x, hread, hok⟩ := bind_eq_ok.mp hok
  obtain ⟨st₁, -, heq⟩ := map_eq_ok.mp hok
  cases heq
  exact (readBlocks_file hread).1

/-- **A read that returns**, of a large request with what it is to give in the buffer, or of a small
one: it gives that, and of the cache only the order of the blocks changes. -/
theorem Remembers.read {last : Nat × Nat → Option (List UInt8)} {f : Nat → List UInt8}
    (h : Remembers st last fun _ => blockSize.toNat)
    (hlast : ∀ c data, last (device, c) = some data → f c = data)
    (hlength : ∀ c, (f c).length = blockSize.toNat)
    (hheld : r.Large → r.buffer = fromBlock f r.blockN.toNat r.nblocks.toNat)
    (hok : r.cachedRead (fileDevices sizes) fuel device st = .ok (st', out, k)) :
    out = fromBlock f r.blockN.toNat r.nblocks.toNat ∧
      ∃ blocks disk ys, st' = { st with blocks := blocks, disk := disk } ∧ Inv st' ys := by
  obtain ⟨xs, hinv⟩ := h.inv
  -- the blocks of the device that the cache has are those that were written to
  have hsame : ∀ c id, st.blockLookup device c = some id →
      (st.entries id).blockSize = blockSize.toNat ∧ (st.entries id).data = f c := by
    intro c id hlook
    have hfind : st.cache.find (device, c) = some (some id) := Option.join_eq_some_iff.mp hlook
    cases hc : last (device, c) with
    | none =>
        rw [h.nothing _ hc] at hfind
        cases hfind
    | some data =>
        obtain ⟨id', hid', hsize, hdata⟩ := h.cached _ data hc
        rw [hfind] at hid'
        cases hid'
        exact ⟨hsize, hdata.trans (hlast c data hc).symm⟩
  by_cases hlarge : r.Large
  · have hout := hlarge.buffer_kept hok
    refine ⟨hout.trans (hheld hlarge), ?_⟩
    rw [hlarge.cachedRead_eq] at hok
    obtain ⟨x, hread, hok⟩ := bind_eq_ok.mp hok
    obtain ⟨hbuffer, disk, hdisk⟩ := readBlocks_file hread
    have hupdate : updateDirty device blockSize.toNat x.2 r.blockN.toNat r.nblocks.toNat x.1.1 =
        .ok x.2 := by
      rw [hbuffer, hheld hlarge, hdisk]
      exact updateDirty_same r.blockN.toNat_lt hlength hsame
    obtain ⟨st₁, hloop, heq⟩ := map_eq_ok.mp hok
    rw [hupdate] at hloop
    cases hloop
    cases heq
    refine ⟨st.blocks, disk, xs, hdisk, ?_⟩
    rw [hdisk]
    exact hinv.disk disk
  · rw [r.cachedRead_small hlarge] at hok
    obtain ⟨⟨st₁, out₁⟩, hsmall, heq⟩ := map_eq_ok.mp hok
    cases heq
    obtain ⟨hall, hout, blocks, ys, hst, hinv'⟩ := hinv.readSmall_ok r.blockN.toNat_lt hsmall
    refine ⟨?_, blocks, st.disk, ys, hst, hinv'⟩
    have hdrop : r.buffer.drop (r.nblocks.toNat * blockSize.toNat) = [] :=
      List.drop_eq_nil_of_le r.length_buffer.le
    rw [hout, hdrop, List.append_nil, List.nil_append]
    apply List.flatMap_congr
    intro i hi
    obtain ⟨data, hdata⟩ := Option.isSome_iff_exists.mp (hall i (List.mem_range.mp hi))
    obtain ⟨id, hlook, rfl⟩ := Option.map_eq_some_iff.mp hdata
    show (cachedData st (device, _)).getD [] = _
    rw [hdata]
    exact (hsame _ id hlook).2

/-! ## §4. Runs. -/

/-- Every read of the calls gives what was written or what the device has, and changes no data
in the cache. -/
def Coherent (sizes : Nat → Nat) (files : Nat → StorageFile) (nBlocks : UInt64)
    (fuel device : Nat) (cs : List (Access blockSize)) : Prop :=
  ∀ before r after, cs = before ++ .read r :: after → ∀ st st' out k,
    accesses (fileDevices sizes) fuel device (new nBlocks.toNat files) before = .ok st →
    r.cachedRead (fileDevices sizes) fuel device st = .ok (st', out, k) →
    out = expected sizes files device before r ∧ cachedData st' = cachedData st

/-- Every large read is given a buffer that holds already what was written or what the device
has. -/
def Held (sizes : Nat → Nat) (files : Nat → StorageFile) (device : Nat)
    (cs : List (Access blockSize)) : Prop :=
  ∀ before r after, cs = before ++ .read r :: after → r.Large →
    r.buffer = expected sizes files device before r

theorem current_of_last {cs : List (Access blockSize)} {b : Nat} {data : List UInt8}
    (h : lastData device cs (device, b) = some data) : current sizes files device cs b = data := by
  unfold current
  rw [h, Option.getD_some]

theorem Remembers.length_current {cs : List (Access blockSize)}
    (h : Remembers st (lastData device cs) fun _ => blockSize.toNat) (b : Nat) :
    (current sizes files device cs b).length = blockSize.toNat := by
  unfold current
  cases hlast : lastData device cs (device, b) with
  | none =>
      rw [Option.getD_none, onDevice, List.length_map, List.length_range]
  | some data => exact h.length _ data hlast

/-- **One call** that returns: the cache has what was written also after it. -/
theorem Remembers.access {cs : List (Access blockSize)} {c : Access blockSize}
    (h : Remembers st (lastData device cs) fun _ => blockSize.toNat) (hmax : st.maxBlocks < 2 ^ 64)
    (hheld : ∀ r, c = .read r → r.Large → r.buffer = expected sizes files device cs r)
    (hok : SharedCache.access (fileDevices sizes) fuel device st c = .ok st') :
    Remembers st' (lastData device (cs ++ [c])) (fun _ => blockSize.toNat) ∧
      st'.maxBlocks = st.maxBlocks := by
  rw [lastData_append]
  cases c with
  | read r =>
      obtain ⟨⟨st₁, out, k⟩, hread, rfl⟩ := map_eq_ok.mp hok
      obtain ⟨-, blocks, disk, ys, rfl, hinv⟩ := h.read (fun _ _ hlast => current_of_last hlast)
        h.length_current (hheld r rfl) hread
      exact ⟨⟨⟨ys, hinv⟩, h.cached, h.nothing, h.length⟩, rfl⟩
  | write r =>
      obtain ⟨x, hwrite, rfl⟩ := map_eq_ok.mp hok
      obtain ⟨st₁, hloop, rfl⟩ := map_eq_ok.mp hwrite
      obtain ⟨h₁, hmax₁, -⟩ := h.writeLoop hmax
        blockSize.toNat_lt r.blockN.toNat_lt r.length_buffer hloop
      exact ⟨h₁, hmax₁⟩

/-- **All calls**: the cache has what was written, as long as the buffers of large reads hold what
they are to give. -/
theorem Held.remembers {nBlocks : UInt64} {cs : List (Access blockSize)}
    (hheld : Held sizes files device cs)
    (hrun : accesses (fileDevices sizes) fuel device (new nBlocks.toNat files) cs = .ok st) :
    Remembers st (lastData device cs) (fun _ => blockSize.toNat) ∧ st.maxBlocks < 2 ^ 64 := by
  induction cs using List.reverseRecOn generalizing st with
  | nil =>
      cases hrun
      exact ⟨remembers_new _ _ _, nBlocks.toNat_lt⟩
  | append_singleton cs c ih =>
      rw [accesses_append] at hrun
      obtain ⟨st₁, hbefore, hrun⟩ := bind_eq_ok.mp hrun
      obtain ⟨st₂, hcall, hnil⟩ := bind_eq_ok.mp hrun
      cases hnil
      -- what is asked of the longer sequence is asked of the shorter one, too
      have hheld₁ : Held sizes files device cs := by
        intro before r after hcs
        refine hheld before r (after ++ [c]) ?_
        rw [hcs, List.append_assoc, List.cons_append]
      obtain ⟨h₁, hmax₁⟩ := ih hheld₁ hbefore
      obtain ⟨h₂, hmax₂⟩ := h₁.access hmax₁ (fun r hr => hheld cs r [] (by rw [hr])) hcall
      exact ⟨h₂, hmax₂ ▸ hmax₁⟩

/-- Where the buffers hold what they are to hold, reads are coherent. -/
theorem Held.coherent {nBlocks : UInt64} {cs : List (Access blockSize)}
    (hheld : Held sizes files device cs) : Coherent sizes files nBlocks fuel device cs := by
  intro before r after hcs st st' out k hrun hread
  have hbefore : Held sizes files device before := by
    intro before' r' after' hb
    refine hheld before' r' (after' ++ .read r :: after) ?_
    rw [hcs, hb, List.append_assoc, List.cons_append]
  obtain ⟨h, -⟩ := hbefore.remembers hrun
  obtain ⟨hout, blocks, disk, ys, rfl, -⟩ := h.read (fun _ _ hlast => current_of_last hlast)
    h.length_current (hheld before r after hcs) hread
  exact ⟨hout, rfl⟩

/-- Where reads of calls that return are coherent, the buffers held what they were to hold. -/
theorem Coherent.held {nBlocks : UInt64} {cs : List (Access blockSize)}
    (hcoherent : Coherent sizes files nBlocks fuel device cs)
    (hreturns : accesses (fileDevices sizes) fuel device (new nBlocks.toNat files) cs = .ok st) :
    Held sizes files device cs := by
  intro before r after hcs hlarge
  rw [hcs, accesses_append] at hreturns
  obtain ⟨st₁, hbefore, hrest⟩ := bind_eq_ok.mp hreturns
  obtain ⟨st₂, hcall, -⟩ := bind_eq_ok.mp hrest
  obtain ⟨⟨st₃, out, k⟩, hread, -⟩ := map_eq_ok.mp hcall
  rw [← hlarge.buffer_kept hread]
  exact (hcoherent before r after hcs st₁ st₃ out k hbefore hread).1

/-- **Reads are coherent exactly when every large read is given a buffer that holds already what
was written last or what the device has**, in every sequence of calls that all return. -/
theorem coherent_iff (sizes : Nat → Nat) (files : Nat → StorageFile) (nBlocks blockSize : UInt64)
    (fuel device : Nat) (cs : List (Access blockSize))
    (hreturns : ∃ st, accesses (fileDevices sizes) fuel device (new nBlocks.toNat files) cs =
      .ok st) :
    Coherent sizes files nBlocks fuel device cs ↔ Held sizes files device cs := by
  obtain ⟨st, hst⟩ := hreturns
  exact ⟨fun hcoherent => hcoherent.held hst, Held.coherent⟩

end Files

theorem foldl_put_of_ne {ps : List ((Nat × Nat) × List UInt8)}
    {last : Nat × Nat → Option (List UInt8)} {k : Nat × Nat} (h : ∀ p ∈ ps, k ≠ p.1) :
    ps.foldl put last k = last k := by
  induction ps generalizing last with
  | nil => rfl
  | cons p ps ih =>
      rw [List.foldl_cons, ih fun q hq => h q (List.mem_cons_of_mem _ hq)]
      exact Function.update_of_ne (h p List.mem_cons_self) _ _

/-- The blocks of a request that is written have its buffer. -/
theorem fromBlock_written {last : Nat × Nat → Option (List UInt8)} {d : Nat → List UInt8}
    {size b n : Nat} {buffer : List UInt8} (hb : b < 2 ^ 64) (hn : n ≤ 2 ^ 64)
    (hlength : buffer.length = n * size) :
    fromBlock (fun c => ((blocksOf device b n size buffer).foldl put last (device, c)).getD (d c))
      b n = buffer := by
  induction n generalizing last b buffer with
  | zero =>
      rw [Nat.zero_mul, List.length_eq_zero_iff] at hlength
      exact hlength.symm
  | succ n ih =>
      have hdrop : (buffer.drop size).length = n * size := by
        rw [List.length_drop, hlength, Nat.succ_mul, Nat.add_sub_cancel]
      -- none of the other blocks is the first block again
      have hfirst : ∀ p ∈ blocksOf device ((b + 1) % 2 ^ 64) n size (buffer.drop size),
          ((device, b) : Nat × Nat) ≠ p.1 := by
        intro p hp
        obtain ⟨i, hi, rfl⟩ := List.mem_map.mp hp
        have hlt := List.mem_range.mp hi
        intro heq
        have hblock : b = ((b + 1) % 2 ^ 64 + i) % 2 ^ 64 := congrArg Prod.snd heq
        omega
      rw [fromBlock_succ hb, blocksOf_succ hb, List.foldl_cons,
        ih (Nat.mod_lt _ (by decide)) (Nat.le_of_succ_le hn) hdrop, foldl_put_of_ne hfirst]
      unfold put
      rw [Function.update_self]
      exact List.take_append_drop size buffer

/-- A read gives what was just written. -/
theorem expected_write {sizes : Nat → Nat} {files : Nat → StorageFile}
    (cs : List (Access blockSize)) (r : Request blockSize) :
    expected sizes files device (cs ++ [.write r]) r = r.buffer := by
  unfold expected current
  rw [lastData_append]
  exact fromBlock_written r.blockN.toNat_lt r.nblocks.toNat_lt.le r.length_buffer

/-- One device, with blocks of 4096 bytes. -/
def pages (dev : Nat) : Nat := if dev = 1 then 4096 else 0

/-- Files of one byte throughout. -/
def filesOf (v : UInt8) : Nat → StorageFile := fun _ => ⟨⟨fun _ => v, []⟩, false⟩

/-- A request for the first blocks, with a buffer of one byte throughout. -/
def firstBlocks (n : UInt64) (v : UInt8) : Request 4096 :=
  ⟨0, n, List.replicate (n.toNat * (4096 : UInt64).toNat) v, List.length_replicate⟩

theorem firstBlocks_large : (firstBlocks 17 0).Large := by
  show 64 * 1024 < (17 : UInt64).toNat * (4096 : UInt64).toNat % 2 ^ 64
  decide

theorem firstBlocks_small : ¬ (firstBlocks 1 0).Large := by
  show ¬ 64 * 1024 < (1 : UInt64).toNat * (4096 : UInt64).toNat % 2 ^ 64
  decide

/-- The first byte that a read is to give. -/
theorem expected_head {sizes : Nat → Nat} {files : Nat → StorageFile}
    {before : List (Access 4096)} {v : UInt8}
    (h : (current sizes files device before 0).head? = some v) :
    (expected sizes files device before (firstBlocks 17 0)).head? = some v := by
  show (fromBlock (current sizes files device before) 0 (16 + 1)).head? = some v
  rw [fromBlock_succ (by decide), List.head?_append, h]
  rfl

theorem held_pages : Held pages (filesOf 2) 1
    [.write (firstBlocks 17 1), .read (firstBlocks 17 1), .read (firstBlocks 1 0)] := by
  intro before r after hcs hlarge
  cases before with
  | nil => cases hcs
  | cons c₁ before =>
      obtain ⟨hc₁, hcs₁⟩ := List.cons.inj hcs
      cases before with
      | nil =>
          have hr : firstBlocks 17 1 = r := Access.read.inj (List.cons.inj hcs₁).1
          rw [← hc₁, ← hr]
          exact (expected_write [] (firstBlocks 17 1)).symm
      | cons c₂ before =>
          have hcs₂ := (List.cons.inj hcs₁).2
          cases before with
          | nil =>
              -- the last read is of one block only
              have hr : firstBlocks 1 0 = r := Access.read.inj (List.cons.inj hcs₂).1
              rw [← hr] at hlarge
              exact absurd hlarge firstBlocks_small
          | cons c₃ before =>
              have hcs₃ := (List.cons.inj hcs₂).2
              exact absurd hcs₃.symm (List.append_ne_nil_of_right_ne_nil _ (List.cons_ne_nil _ _))

/-- Blocks are written and read with the buffer that they were written from, directly; then one of
them is read into a buffer of zeros, from the cache. -/
theorem coherent_large_read :
    Coherent pages (filesOf 2) 100 20 1
      [.write (firstBlocks 17 1), .read (firstBlocks 17 1), .read (firstBlocks 1 0)] :=
  (coherent_iff pages (filesOf 2) 100 4096 20 1 _ ⟨_, rfl⟩).mpr held_pages

/-- **The first 17 blocks are read into a buffer of zeros.**  It has neither what the device has,
where nothing was written, nor what was written; and the block that was written has zeros from then
on, also in the cache. -/
theorem large_read_fails :
    ¬ Coherent pages (filesOf 2) 100 20 1 [.read (firstBlocks 17 0)] ∧
    ¬ Coherent pages (filesOf 2) 100 20 1 [.write (firstBlocks 1 1), .read (firstBlocks 17 0)] ∧
    ∃ st, accesses (fileDevices pages) 20 1 (new 100 (filesOf 2))
        [.write (firstBlocks 1 1), .read (firstBlocks 17 0)] = .ok st ∧
      cachedData st (1, 0) = some (List.replicate 4096 0) := by
  have hzeros : (firstBlocks 17 0).buffer.head? = some 0 := rfl
  refine ⟨fun hcoherent => ?_, fun hcoherent => ?_, _, rfl, ?_⟩
  · have hheld := hcoherent.held rfl [] (firstBlocks 17 0) [] rfl firstBlocks_large
    have hdevice : (current pages (filesOf 2) 1 ([] : List (Access 4096)) 0).head? = some 2 := by
      unfold current onDevice
      rw [show lastData 1 ([] : List (Access 4096)) (1, 0) = none from rfl, Option.getD_none,
        List.head?_map, List.head?_range, if_neg (by decide)]
      rfl
    rw [hheld, expected_head hdevice] at hzeros
    cases hzeros
  · have hheld := hcoherent.held rfl [.write (firstBlocks 1 1)] (firstBlocks 17 0) [] rfl
      firstBlocks_large
    rw [hheld, expected_head rfl] at hzeros
    cases hzeros
  · show some ((List.replicate (17 * 4096) (0 : UInt8)).take 4096) = _
    rw [List.take_replicate]
    rfl

end SharedCache

end Metta.MettaFs
