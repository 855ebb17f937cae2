/-
  Metta.MettaFs.Bookkeeping — the map and the list of blocks of the cache.

  The list and the map have the same blocks, and every block is listed under the
  key that is written in it, whatever calls are made.  Only `flush` breaks this: it
  leaves a null pointer in the map for every block that it writes out.

    • `LruList.Holds` — the blocks on the list, by the links,
    • `Ends` — what a call leaves, whether it returns or throws,
    • `Inv` — the invariant of all calls, null pointers allowed,
    • `Bookkeeping` — the map and the list in step, no null pointers,
    • `bookkeeping_iff` — when every state of a sequence of calls has it.
-/
import Metta.MettaFs.LruList
import Metta.Machine.Outcome

namespace Metta.MettaFs

open Metta.Machine

/-! ## §1. The list. -/

namespace LruList

variable {l : LruList} {xs : List Nat} {id : Nat}

/-- The blocks on the list from the least recently used one on; others have no links. -/
structure Holds (l : LruList) (xs : List Nat) : Prop where
  ring : Links.Ring l.links none (xs.map some)
  free : ∀ id ∉ xs, l.nextMru id = none ∧ l.prevLru id = none

theorem holds_empty : Holds .empty [] where
  ring := ⟨by simp, rfl, rfl⟩
  free _ _ := ⟨rfl, rfl⟩

theorem Holds.nodup (h : Holds l xs) : xs.Nodup := IsRing.nodup h.ring

theorem Holds.wellFormed (h : Holds l xs) : l.WellFormed xs := wellFormed_iff_ring.mpr h.ring

theorem Holds.unlinked (h : Holds l xs) (hid : id ∉ xs) : l.Unlinked xs id :=
  ⟨(h.free id hid).2, (h.free id hid).1, hid⟩

theorem Holds.lru_eq (h : Holds l xs) : l.lru = xs.head? := h.wellFormed.lru

theorem Holds.next_eq {ys zs : List Nat} (h : Holds l (ys ++ id :: zs)) :
    l.nextMru id = zs.head? := h.wellFormed.nextMru ys id zs rfl

/-- `link_at_mru` passes its assertions and links a block that is not on the list as the last. -/
theorem Holds.linkAtMru (h : Holds l xs) (hid : id ∉ xs) :
    ∃ l', l.linkAtMru id = some l' ∧ Holds l' (xs ++ [id]) := by
  have hun := h.unlinked hid
  obtain ⟨l', hl', hring⟩ := ring_linkAtMru h.ring hun
  apply Exists.intro l'
  apply And.intro hl'
  constructor
  · exact hring
  · intro y hy
    rw [List.mem_append, List.mem_singleton, not_or] at hy
    have hkeep := linkAtMru_frame h.ring hun hl' hy.1 hy.2
    have hfree := h.free y hy.1
    exact ⟨hkeep.2.trans hfree.1, hkeep.1.trans hfree.2⟩

/-- `unlink_from` takes a block off the list. -/
theorem Holds.unlinkFrom {ys zs : List Nat} (h : Holds l (ys ++ id :: zs)) :
    Holds (l.unlinkFrom id) (ys ++ zs) where
  ring := ring_unlinkFrom h.ring
  free y hy := by
    by_cases hyid : y = id
    · have hout := unlinkFrom_unlinked h.ring
      rw [hyid]
      exact ⟨hout.nextMru, hout.prevLru⟩
    · have hyxs : y ∉ ys ++ id :: zs := by
        simp only [List.mem_append, List.mem_cons, not_or] at hy ⊢
        exact ⟨hy.1, hyid, hy.2⟩
      have hkeep := unlinkFrom_frame h.ring hyxs
      have hfree := h.free y hyxs
      exact ⟨hkeep.2.trans hfree.1, hkeep.1.trans hfree.2⟩

end LruList

namespace SharedCache

variable {δ α β : Type} {dv : Devices δ} {fuel device blockSize : Nat} {st st' : SharedCache δ}
  {xs : List Nat}

/-! ## §2. Calls that return and calls that throw. -/

/-- A result that is returned has `Q`, and a cache that is left by an exception has `P`. -/
def Ends (P : SharedCache δ → Prop) (Q : α → Prop) : Except (Stop δ) α → Prop
  | .ok a => Q a
  | .error (.thrown _ st) => P st
  | .error .assertion => True
  | .error .outOfFuel => True

theorem Ends.bind {P : SharedCache δ → Prop} {Q : α → Prop} {R : β → Prop}
    {x : Except (Stop δ) α} {f : α → Except (Stop δ) β} (hx : Ends P Q x)
    (hf : ∀ a, Q a → Ends P R (f a)) : Ends P R (x.bind f) := by
  cases x with
  | ok a => exact hf a hx
  | error e =>
      cases e with
      | thrown what st => exact hx
      | assertion => trivial
      | outOfFuel => trivial

theorem Ends.map {P : SharedCache δ → Prop} {Q : α → Prop} {R : β → Prop}
    {x : Except (Stop δ) α} {f : α → β} (hx : Ends P Q x) (hf : ∀ a, Q a → R (f a)) :
    Ends P R (x.map f) := by
  cases x with
  | ok a => exact hf a hx
  | error e =>
      cases e with
      | thrown what st => exact hx
      | assertion => trivial
      | outOfFuel => trivial

theorem Ends.mono {P P' : SharedCache δ → Prop} {Q Q' : α → Prop} {x : Except (Stop δ) α}
    (hx : Ends P Q x) (hP : ∀ st, P st → P' st) (hQ : ∀ a, Q a → Q' a) : Ends P' Q' x := by
  cases x with
  | ok a => exact hQ a hx
  | error e =>
      cases e with
      | thrown what st => exact hP st hx
      | assertion => trivial
      | outOfFuel => trivial

/-- A call that does not throw. -/
theorem Ends.quiet {P : SharedCache δ → Prop} {Q : α → Prop} {x : Except (Stop δ) α}
    (hx : Ends (fun _ => False) Q x) : Ends P Q x :=
  hx.mono (fun _ => False.elim) fun _ => id

theorem Ends.ended {P : SharedCache δ → Prop} {x : Except (Stop δ) (SharedCache δ)}
    (hx : Ends P P x) (h : ended x = some st') : P st' := by
  cases x with
  | ok st =>
      cases h
      exact hx
  | error e =>
      cases e with
      | thrown what st =>
          cases h
          exact hx
      | assertion => cases h
      | outOfFuel => cases h

/-! ## §3. The invariant. -/

/-- The key a block has. -/
def key (blk : SizedBlock) : Nat × Nat := (blk.device, blk.blockNum)

/-- The blocks `xs` of the list are the blocks of the map, each under its own key; all are
dirty, and the map may have null pointers. -/
structure Inv (st : SharedCache δ) (xs : List Nat) : Prop where
  holds : st.blocks.Holds xs
  lt : ∀ id ∈ xs, id < st.next
  live : ∀ id ∈ xs, st.live id = true
  dirty : ∀ id ∈ xs, (st.entries id).dirty = true
  idle : ∀ id ∈ xs, (st.entries id).busy = false
  sized : ∀ id ∈ xs, (st.entries id).blockSize < 2 ^ 64
  find : ∀ id ∈ xs, st.cache.find (key (st.entries id)) = some (some id)
  listed : ∀ k id, st.cache.find k = some (some id) → id ∈ xs ∧ key (st.entries id) = k
  size : st.cache.size ≤ st.maxBlocks

theorem inv_new (nBlocks : Nat) (disk : δ) : Inv (new nBlocks disk) [] where
  holds := LruList.holds_empty
  lt := by simp
  live := by simp
  dirty := by simp
  idle := by simp
  sized := by simp
  find := by simp
  listed k id h := by simp [new] at h
  size := by simp [new]

/-- Where the list is another one of the same blocks. -/
theorem Inv.relink (h : Inv st xs) {blocks : LruList} {ys : List Nat} (hholds : blocks.Holds ys)
    (hmem : ∀ id, id ∈ ys ↔ id ∈ xs) : Inv { st with blocks := blocks } ys where
  holds := hholds
  lt id hid := h.lt id ((hmem id).mp hid)
  live id hid := h.live id ((hmem id).mp hid)
  dirty id hid := h.dirty id ((hmem id).mp hid)
  idle id hid := h.idle id ((hmem id).mp hid)
  sized id hid := h.sized id ((hmem id).mp hid)
  find id hid := h.find id ((hmem id).mp hid)
  listed k id hk := ⟨(hmem id).mpr (h.listed k id hk).1, (h.listed k id hk).2⟩
  size := h.size

/-- Where blocks of the list differ in their data only, and other blocks are new. -/
theorem Inv.congr (h : Inv st xs) (hblocks : st'.blocks = st.blocks) (hcache : st'.cache = st.cache)
    (hmax : st'.maxBlocks = st.maxBlocks) (hnext : st.next ≤ st'.next)
    (hlive : ∀ id ∈ xs, st'.live id = st.live id)
    (hsame : ∀ id ∈ xs, ∃ data, st'.entries id = { st.entries id with data := data }) :
    Inv st' xs := by
  have hentry : ∀ id ∈ xs, (st'.entries id).dirty = (st.entries id).dirty ∧
      (st'.entries id).busy = (st.entries id).busy ∧
      (st'.entries id).blockSize = (st.entries id).blockSize ∧
      key (st'.entries id) = key (st.entries id) := by
    intro id hid
    obtain ⟨data, hdata⟩ := hsame id hid
    rw [hdata]
    exact ⟨rfl, rfl, rfl, rfl⟩
  refine ⟨?_, ?_, ?_, ?_, ?_, ?_, ?_, ?_, ?_⟩
  · rw [hblocks]
    exact h.holds
  · exact fun id hid => (h.lt id hid).trans_le hnext
  · exact fun id hid => (hlive id hid).trans (h.live id hid)
  · exact fun id hid => (hentry id hid).1.trans (h.dirty id hid)
  · exact fun id hid => (hentry id hid).2.1.trans (h.idle id hid)
  · intro id hid
    rw [(hentry id hid).2.2.1]
    exact h.sized id hid
  · intro id hid
    rw [(hentry id hid).2.2.2, hcache]
    exact h.find id hid
  · intro k id hk
    rw [hcache] at hk
    obtain ⟨hid, heq⟩ := h.listed k id hk
    exact ⟨hid, (hentry id hid).2.2.2.trans heq⟩
  · rw [hcache, hmax]
    exact h.size

theorem Inv.disk (h : Inv st xs) (disk : δ) : Inv { st with disk := disk } xs :=
  h.congr rfl rfl rfl le_rfl (fun _ _ => rfl) fun _ _ => ⟨_, rfl⟩

/-- The block that a look-up finds is on the list. -/
theorem Inv.lookup (h : Inv st xs) {b id : Nat} (hlook : st.blockLookup device b = some id) :
    id ∈ xs ∧ key (st.entries id) = (device, b) :=
  h.listed _ id (Option.join_eq_some_iff.mp hlook)

/-- The map has no null pointer. -/
def NoNull (st : SharedCache δ) : Prop := ∀ k, st.cache.find k ≠ some none

/-- What every call but `flush` keeps. -/
def Kept (st st' : SharedCache δ) : Prop := (∃ xs, Inv st' xs) ∧ (NoNull st → NoNull st')

theorem Kept.trans {st'' : SharedCache δ} (h : Kept st st') (h' : Kept st' st'') : Kept st st'' :=
  ⟨h'.1, fun hnull => h'.2 (h.2 hnull)⟩

theorem Inv.kept (h : Inv st' xs) (hcache : st'.cache = st.cache) : Kept st st' :=
  ⟨⟨xs, h⟩, fun hnull k => hcache ▸ hnull k⟩

/-! ## §4. `get_blocks`. -/

/-- No block of the list can be used again. -/
theorem Inv.usableFrom (h : Inv st xs) {ys zs : List Nat} (hxs : xs = ys ++ zs) (id : Nat) :
    st.usableFrom blockSize fuel zs.head? ≠ some (some id) := by
  induction fuel generalizing ys zs with
  | zero =>
      cases zs with
      | nil => simp [SharedCache.usableFrom]
      | cons z zs => simp [SharedCache.usableFrom]
  | succ fuel ih =>
      cases zs with
      | nil => simp [SharedCache.usableFrom]
      | cons z zs =>
          have hz : z ∈ xs := by simp [hxs]
          have hnext : st.blocks.nextMru z = zs.head? := (hxs ▸ h.holds).next_eq
          simp only [List.head?_cons, SharedCache.usableFrom, SizedBlock.isUsable, h.dirty z hz,
            Bool.not_true, Bool.false_and, Bool.not_false, Bool.true_or, if_true, hnext]
          have hxs' : xs = (ys ++ [z]) ++ zs := by rw [hxs, List.append_assoc]; rfl
          exact ih hxs'

/-- The second loop of `get_blocks` ends only where there is nothing to do. -/
theorem Inv.evict (h : Inv st xs) {n : Nat} {ret : List Nat} :
    Ends (fun _ => False) (fun r => n = 0 ∧ r = (st, ret)) (evict blockSize fuel n st ret) := by
  induction fuel with
  | zero =>
      cases n with
      | zero => exact ⟨rfl, rfl⟩
      | succ n => trivial
  | succ fuel ih =>
      cases n with
      | zero => exact ⟨rfl, rfl⟩
      | succ n =>
          rw [SharedCache.evict, h.holds.lru_eq]
          split
          · trivial
          · exact ih
          · next id hid => exact absurd hid (h.usableFrom (List.nil_append xs).symm id)

theorem Inv.allocate (h : Inv st xs) (n blockSize : Nat) : Inv (st.allocate n blockSize).1 xs := by
  have hold : ∀ id ∈ xs, ¬ (st.next ≤ id ∧ id < st.next + n) := fun id hid hle => by
    have := h.lt id hid
    omega
  refine h.congr rfl rfl rfl (Nat.le_add_right _ _) (fun id hid => ?_) fun id hid => ?_
  · exact if_neg (hold id hid)
  · exact ⟨_, if_neg (hold id hid)⟩

/-- **`get_blocks`** gives new blocks, as many as there is room for; or it throws at once. -/
theorem Inv.getBlocks (h : Inv st xs) (n : Nat) :
    Ends (fun st' => st' = st)
      (fun r => r = st.allocate n blockSize ∧ st.cache.size + n ≤ st.maxBlocks)
      (getBlocks fuel st n blockSize) := by
  rw [SharedCache.getBlocks]
  split
  · rfl
  · obtain ⟨m, hm⟩ : ∃ m, m = min ((st.maxBlocks + 2 ^ 64 - st.cache.size) % 2 ^ 64) n := ⟨_, rfl⟩
    have hfree : (st.maxBlocks + 2 ^ 64 - st.cache.size) % 2 ^ 64 ≤ st.maxBlocks - st.cache.size := by
      rw [show st.maxBlocks + 2 ^ 64 - st.cache.size = st.maxBlocks - st.cache.size + 2 ^ 64 by
        have := h.size
        omega, Nat.add_mod_right]
      exact Nat.mod_le _ _
    simp only [← hm]
    refine (h.allocate m blockSize).evict.mono (fun _ => False.elim) fun r hr => ?_
    have hmn : m = n := by omega
    have := h.size
    refine ⟨hmn ▸ hr.2, by omega⟩

/-! ## §5. Reading. -/

/-- A block that is touched stays on the list. -/
theorem Inv.touch (h : Inv st xs) {id : Nat} (hid : id ∈ xs) :
    Ends (fun _ => False) (fun st' => (∃ ys, Inv st' ys) ∧ st'.cache = st.cache) (st.touch id) := by
  obtain ⟨ys, zs, rfl⟩ := List.append_of_mem hid
  have hnd := h.holds.nodup
  rw [List.nodup_middle, List.nodup_cons] at hnd
  obtain ⟨l, hlink, hholds⟩ := h.holds.unlinkFrom.linkAtMru hnd.1
  rw [SharedCache.touch, hlink]
  refine ⟨⟨_, h.relink hholds fun y => ?_⟩, rfl⟩
  simp only [List.mem_append, List.mem_cons, List.not_mem_nil, or_false]
  tauto

theorem Inv.setData (h : Inv st xs) (id : Nat) (data : List UInt8) :
    Inv { st with entries := Function.update st.entries id { st.entries id with data := data } }
      xs := by
  refine h.congr rfl rfl rfl le_rfl (fun _ _ => rfl) fun id' _ => ?_
  by_cases heq : id' = id
  · exact ⟨data, by simp [heq]⟩
  · exact ⟨(st.entries id').data, by simp [heq]⟩

/-- **A large read** changes data only. -/
theorem Inv.updateDirty (h : Inv st xs) (b n : Nat) (buffer : List UInt8) :
    Ends (fun _ => False) (fun st' => Inv st' xs ∧ st'.cache = st.cache)
      (updateDirty device blockSize st b n buffer) := by
  induction n generalizing st b buffer with
  | zero => exact ⟨h, rfl⟩
  | succ n ih =>
      rw [SharedCache.updateDirty]
      split
      · next id hlook =>
        simp only
        split
        · trivial
        · split
          · exact ih (h.setData id (buffer.take blockSize)) _ _
          · exact ih h _ _
      · exact ih h _ _

theorem Inv.readBlocks (h : Inv st xs) {b n : Nat} {buffer : List UInt8} :
    Ends (fun _ => False) (fun r => Inv r.2 xs ∧ r.2.cache = st.cache)
      (readBlocks dv st device b buffer n blockSize) := by
  rw [SharedCache.readBlocks]
  split
  · exact ⟨h.disk _, rfl⟩
  · trivial

/-- **The loop of a small read** keeps the map as it is. -/
theorem Inv.readSmall (h : Inv st xs) {b n : Nat} {done buffer : List UInt8} :
    Ends (Kept st) (fun r => Kept st r.1)
      (readSmall dv device blockSize fuel st b n done buffer) := by
  induction fuel generalizing st xs b n done buffer with
  | zero =>
      cases n with
      | zero => exact h.kept rfl
      | succ n => trivial
  | succ fuel ih =>
      cases n with
      | zero => exact h.kept rfl
      | succ n =>
          rw [SharedCache.readSmall]
          split
          · next id hlook =>
            -- the block is cached: it is moved to the end of the list, and the map stays
            split
            · trivial
            · refine (h.touch (h.lookup hlook).1).quiet.bind ?_
              rintro st₁ ⟨⟨ys, h₁⟩, hcache₁⟩
              refine (ih h₁).mono (fun st' hst' => ?_) fun r hr => ?_
              · exact (h₁.kept hcache₁).trans hst'
              · exact (h₁.kept hcache₁).trans hr
          · -- it is not: what was read is put nowhere, so the map stays here, too
            refine h.readBlocks.quiet.bind ?_
            rintro ⟨⟨buffer₁, actuallyRead⟩, st₁⟩ ⟨h₁, hcache₁⟩
            simp only
            split
            · exact h₁.kept hcache₁
            · refine ((h₁.getBlocks _).mono ?_ fun _ => id).bind ?_
              · rintro st' rfl
                exact h₁.kept hcache₁
              · rintro ⟨st₂, ents⟩ ⟨hr, -⟩
                have h₂ : Inv st₂ xs ∧ st₂.cache = st₁.cache := by
                  have hst : st₂ = (st₁.allocate _ blockSize).1 := congrArg Prod.fst hr
                  exact ⟨hst ▸ h₁.allocate _ _, hst ▸ rfl⟩
                have hkept := h₂.1.kept (h₂.2.trans hcache₁)
                simp only
                split
                · exact hkept
                · exact (ih h₂.1).mono (fun st' hst' => hkept.trans hst') fun r hr =>
                    hkept.trans hr

/-- **`cached_read`**. -/
theorem Inv.cachedRead (h : Inv st xs) {b n : Nat} {buffer : List UInt8} :
    Ends (Kept st) (fun r => Kept st r.1) (cachedRead dv fuel st device b buffer n blockSize) := by
  rw [SharedCache.cachedRead]
  split
  · refine h.readBlocks.quiet.bind ?_
    rintro ⟨⟨buffer, actuallyRead⟩, st₁⟩ ⟨h₁, hcache₁⟩
    refine (h₁.updateDirty _ _ _).quiet.map ?_
    rintro st₂ ⟨h₂, hcache₂⟩
    exact h₂.kept (hcache₂.trans hcache₁)
  · exact h.readSmall.map fun r hr => hr

/-! ## §6. Writing. -/

/-- A block that is not on the list is about to be that of the key. -/
structure Ready (st : SharedCache δ) (xs : List Nat) (id : Nat) (k : Nat × Nat) : Prop where
  holds : st.blocks.Holds xs
  not_mem : id ∉ xs
  lt : ∀ j ∈ id :: xs, j < st.next
  live : ∀ j ∈ id :: xs, st.live j = true
  dirty : ∀ j ∈ xs, (st.entries j).dirty = true
  idle : ∀ j ∈ id :: xs, (st.entries j).busy = false
  sized : ∀ j ∈ id :: xs, (st.entries j).blockSize < 2 ^ 64
  find : ∀ j ∈ xs, key (st.entries j) ≠ k ∧ st.cache.find (key (st.entries j)) = some (some j)
  listed : ∀ k' j, st.cache.find k' = some (some j) → k' ≠ k →
    j ∈ xs ∧ key (st.entries j) = k'
  room : (st.cache.assign k (some id)).size ≤ st.maxBlocks

/-- The block is put in. -/
theorem Ready.fill {b id : Nat} {data : List UInt8} (h : Ready st xs id (device, b)) :
    Ends (fun _ => False) (fun st' => Kept st st') (fill st id device b data) := by
  obtain ⟨l, hlink, hholds⟩ := h.holds.linkAtMru h.not_mem
  have hmem : ∀ j, j ∈ xs ++ [id] ↔ j ∈ id :: xs := fun j => by simp [or_comm]
  rw [SharedCache.fill, hlink]
  -- the block is at the end of the list and in the map, dirty
  refine ⟨⟨xs ++ [id], hholds, ?_, ?_, ?_, ?_, ?_, ?_, ?_, h.room⟩, ?_⟩
  · exact fun j hj => h.lt j ((hmem j).mp hj)
  · exact fun j hj => h.live j ((hmem j).mp hj)
  · intro j hj
    rcases List.mem_cons.mp ((hmem j).mp hj) with rfl | hj
    · simp
    · have hne : j ≠ id := fun heq => h.not_mem (heq ▸ hj)
      simpa [hne] using h.dirty j hj
  · intro j hj
    by_cases hne : j = id
    · simpa [hne] using h.idle id List.mem_cons_self
    · simpa [hne] using h.idle j ((hmem j).mp hj)
  · intro j hj
    by_cases hne : j = id
    · simpa [hne] using h.sized id List.mem_cons_self
    · simpa [hne] using h.sized j ((hmem j).mp hj)
  · intro j hj
    rcases List.mem_cons.mp ((hmem j).mp hj) with rfl | hj
    · simp [key, UnorderedMap.find_assign]
    · have hne : j ≠ id := fun heq => h.not_mem (heq ▸ hj)
      obtain ⟨hk, hfind⟩ := h.find j hj
      simp only [Function.update_of_ne hne, UnorderedMap.find_assign, if_neg hk.symm]
      exact hfind
  · intro k j hk
    simp only [UnorderedMap.find_assign] at hk
    split at hk
    · next heq =>
      cases hk
      simp [key, heq]
    · next hne =>
      obtain ⟨hj, hkey⟩ := h.listed k j hk (Ne.symm hne)
      have hne' : j ≠ id := fun heq => h.not_mem (heq ▸ hj)
      simpa [hne', hj] using hkey
  · intro hnull k
    simp only [UnorderedMap.find_assign]
    split
    · simp
    · exact hnull k

/-- **The block that is written to**: that of the key, off the list, or a new one. -/
theorem Inv.entryFor (h : Inv st xs) {b : Nat} (hsize : blockSize < 2 ^ 64) :
    Ends (Kept st) (fun r => r.1.cache = st.cache ∧ ∃ ys, Ready r.1 ys r.2 (device, b))
      (entryFor fuel st device b blockSize) := by
  rw [SharedCache.entryFor]
  split
  · next id hlook =>
    -- found: the block comes off the list, its key stays
    split
    · trivial
    · obtain ⟨hid, hkey⟩ := h.lookup hlook
      obtain ⟨ys, zs, rfl⟩ := List.append_of_mem hid
      have hnd := h.holds.nodup
      rw [List.nodup_middle, List.nodup_cons] at hnd
      have hmem : ∀ j, j ∈ id :: (ys ++ zs) ↔ j ∈ ys ++ id :: zs := fun j => by
        simp only [List.mem_append, List.mem_cons]
        tauto
      have hsub : ∀ j ∈ ys ++ zs, j ∈ ys ++ id :: zs := fun j hj =>
        (hmem j).mp (List.mem_cons_of_mem _ hj)
      have hfind := Option.join_eq_some_iff.mp hlook
      refine ⟨rfl, ys ++ zs, h.holds.unlinkFrom, hnd.1, ?_, ?_, ?_, ?_, ?_, ?_, ?_, ?_⟩
      · exact fun j hj => h.lt j ((hmem j).mp hj)
      · exact fun j hj => h.live j ((hmem j).mp hj)
      · exact fun j hj => h.dirty j (hsub j hj)
      · exact fun j hj => h.idle j ((hmem j).mp hj)
      · exact fun j hj => h.sized j ((hmem j).mp hj)
      · intro j hj
        -- no other block of the list is under the key, for the map has one value for it
        refine ⟨fun heq => hnd.1 ?_, h.find j (hsub j hj)⟩
        have hj' := h.find j (hsub j hj)
        rw [heq, hfind] at hj'
        cases hj'
        exact hj
      · intro k j hk hne
        obtain ⟨hj, hk'⟩ := h.listed k j hk
        rcases List.mem_cons.mp ((hmem j).mpr hj) with rfl | hj
        · exact absurd (hk'.symm.trans hkey) hne
        · exact ⟨hj, hk'⟩
      · rw [UnorderedMap.size_assign_of_some hfind]
        exact h.size
  · next hlook =>
    -- not found: a new block, which is not on the list yet
    refine ((h.getBlocks 1).mono ?_ fun _ => id).bind ?_
    · rintro st' rfl
      exact h.kept rfl
    · rintro ⟨st₁, ents⟩ ⟨hr, hroom⟩
      obtain ⟨rfl, rfl⟩ := Prod.mk.inj hr
      have h₁ := h.allocate 1 blockSize
      have hfresh : st.next ≤ st.next ∧ st.next < st.next + 1 := ⟨le_rfl, Nat.lt_succ_self _⟩
      refine ⟨rfl, xs, h₁.holds, fun hmem => Nat.lt_irrefl _ (h.lt _ hmem), ?_, ?_, h₁.dirty, ?_, ?_,
        ?_, fun k j hk _ => h₁.listed k j hk, ?_⟩
      · exact List.forall_mem_cons.mpr ⟨Nat.lt_succ_self _, h₁.lt⟩
      · exact List.forall_mem_cons.mpr ⟨if_pos hfresh, h₁.live⟩
      · -- new blocks are not busy and have the size of the request
        refine List.forall_mem_cons.mpr ⟨?_, h₁.idle⟩
        simp [SizedBlock.new]
      · refine List.forall_mem_cons.mpr ⟨?_, h₁.sized⟩
        simpa [SharedCache.allocate, SizedBlock.new] using hsize
      · intro j hj
        refine ⟨fun heq => ?_, h₁.find j hj⟩
        have hsome : st.blockLookup device b = some j :=
          Option.join_eq_some_iff.mpr (heq ▸ h₁.find j hj)
        rw [hlook] at hsome
        cases hsome
      · exact (UnorderedMap.size_assign_le _ _ _).trans hroom

/-- **The loop of `cached_write`**. -/
theorem Inv.writeLoop (h : Inv st xs) {b n : Nat} {buffer : List UInt8}
    (hsize : blockSize < 2 ^ 64) :
    Ends (Kept st) (fun st' => Kept st st') (writeLoop fuel device blockSize st b n buffer) := by
  induction n generalizing st xs b buffer with
  | zero => exact h.kept rfl
  | succ n ih =>
      rw [SharedCache.writeLoop]
      refine (h.entryFor hsize).bind ?_
      rintro ⟨st₁, id⟩ ⟨hcache, ys, hready⟩
      refine hready.fill.quiet.bind ?_
      rintro st₂ ⟨⟨zs, h₂⟩, hnull⟩
      have hkept : Kept st st₂ := ⟨⟨zs, h₂⟩, fun hst => hnull fun k => hcache ▸ hst k⟩
      exact (ih h₂).mono (fun st' hst' => hkept.trans hst') fun st' hst' => hkept.trans hst'

/-- **`cached_write`**. -/
theorem Inv.cachedWrite (h : Inv st xs) {b n : Nat} {data : List UInt8}
    (hsize : blockSize < 2 ^ 64) :
    Ends (Kept st) (fun r => Kept st r.1) (cachedWrite fuel st device b data n blockSize) :=
  (h.writeLoop hsize).map fun _ hst' => hst'

/-! ## §7. Flushing. -/

/-- A block that was written out is off the list, and its key has a null pointer. -/
theorem Inv.drop {ys zs : List Nat} {id dev : Nat} (h : Inv st (ys ++ id :: zs))
    (hdev : (st.entries id).device = dev) :
    Inv (st.drop dev id) (ys ++ zs) ∧ ¬ NoNull (st.drop dev id) := by
  have hid : id ∈ ys ++ id :: zs := by simp
  have hnd := h.holds.nodup
  rw [List.nodup_middle, List.nodup_cons] at hnd
  -- the others are in the list still, and are not the block
  have hsub : ∀ j ∈ ys ++ zs, j ∈ ys ++ id :: zs := fun j hj => by
    simp only [List.mem_append, List.mem_cons] at hj ⊢
    tauto
  have hne : ∀ j ∈ ys ++ zs, j ≠ id := fun j hj heq => hnd.1 (heq ▸ hj)
  have hkey : (dev, (st.entries id).blockNum) = key (st.entries id) := by rw [key, hdev]
  have hfind := h.find id hid
  refine ⟨⟨h.holds.unlinkFrom, ?_, ?_, ?_, ?_, ?_, ?_, ?_, ?_⟩, fun hnull => ?_⟩
  · exact fun j hj => h.lt j (hsub j hj)
  · intro j hj
    simpa [SharedCache.drop, hne j hj] using h.live j (hsub j hj)
  · exact fun j hj => h.dirty j (hsub j hj)
  · exact fun j hj => h.idle j (hsub j hj)
  · exact fun j hj => h.sized j (hsub j hj)
  · -- other keys keep their blocks
    intro j hj
    have hj' := h.find j (hsub j hj)
    have hother : key (st.entries id) ≠ key (st.entries j) := by
      intro heq
      rw [heq, hj'] at hfind
      exact hne j hj (Option.some.inj (Option.some.inj hfind))
    simp only [SharedCache.drop, hkey, UnorderedMap.find_assign, if_neg hother]
    exact hj'
  · -- a key that has a block is another one than the one that was dropped
    intro k j hk
    simp only [SharedCache.drop, hkey, UnorderedMap.find_assign] at hk
    split at hk
    · cases hk
    · next hother =>
      obtain ⟨hj, hk'⟩ := h.listed k j hk
      refine ⟨?_, hk'⟩
      simp only [List.mem_append, List.mem_cons] at hj ⊢
      rcases hj with hj | rfl | hj
      · exact .inl hj
      · exact absurd hk' hother
      · exact .inr hj
  · -- the key stays in the map, without a block
    simp only [SharedCache.drop, hkey, UnorderedMap.size_assign_of_some hfind]
    exact h.size
  · refine hnull (key (st.entries id)) ?_
    simp only [SharedCache.drop, hkey, UnorderedMap.find_assign, if_true]

/-- **A rule for the loop of `flush`**: what relates the states before and after holds when the
list ends, when a block of the device is written out and dropped, and when one of another device
is passed by. -/
theorem Inv.flushLoop_rule {ys zs : List Nat} {dev : Nat}
    {Q : List Nat → SharedCache δ → SharedCache δ → Prop}
    (hnil : ∀ {st : SharedCache δ} {xs : List Nat}, Inv st xs → Q [] st st)
    (hwrite : ∀ {st st' : SharedCache δ} {ys zs : List Nat} {id : Nat}, Inv st (ys ++ id :: zs) →
      (st.entries id).device = dev →
      Q zs (SharedCache.drop { st with
        disk := dv.writeBlock st.disk dev (st.entries id).blockNum
          ((st.entries id).data.take (st.entries id).blockSize) } dev id) st' →
      Q (id :: zs) st st')
    (hskip : ∀ {st st' : SharedCache δ} {zs : List Nat} {id : Nat}, (st.entries id).device ≠ dev →
      Q zs st st' → Q (id :: zs) st st')
    (h : Inv st (ys ++ zs)) :
    Ends (fun _ => False) (fun r => Q zs st r.1) (flushLoop dv dev fuel st zs.head?) := by
  induction fuel generalizing st ys zs with
  | zero =>
      cases zs with
      | nil => exact hnil h
      | cons id zs => trivial
  | succ fuel ih =>
      cases zs with
      | nil => exact hnil h
      | cons id zs =>
          have hid : id ∈ ys ++ id :: zs := by simp
          have hnext : st.blocks.nextMru id = zs.head? := h.holds.next_eq
          simp only [List.head?_cons, SharedCache.flushLoop, h.idle id hid, Bool.false_or, hnext]
          by_cases hdev : (st.entries id).device = dev
          · -- a block of the device is written out, and its key gets a null pointer
            have hsize : 1 * (st.entries id).blockSize % 2 ^ 64 = (st.entries id).blockSize := by
              rw [Nat.one_mul, Nat.mod_eq_of_lt (h.sized id hid)]
            simp only [bne_iff_ne, ne_eq, hdev, not_true_eq_false, if_false,
              SharedCache.writeBlocks, hsize]
            split
            · obtain ⟨h₁, -⟩ := (h.disk (dv.writeBlock st.disk dev (st.entries id).blockNum
                ((st.entries id).data.take (st.entries id).blockSize))).drop hdev
              have hloop := ih h₁
              simp only [Except.bind, not_true_eq_false, if_false, hnext]
              exact hloop.mono (fun _ => False.elim) fun r hr => hwrite h hdev hr
            · trivial
          · -- a block of another device stays where it is
            simp only [bne_iff_ne, ne_eq, hdev, not_false_eq_true, if_true]
            have h' : Inv st ((ys ++ [id]) ++ zs) := by rwa [List.append_assoc]
            exact (ih h').mono (fun _ => False.elim) fun r hr => hskip hdev hr

/-- **The loop of `flush`** from the block before `zs` on: the map stays as it is where none of
them is of the device, and else there is a null pointer in it. -/
theorem Inv.flushLoop {ys zs : List Nat} {dev : Nat} (h : Inv st (ys ++ zs)) :
    Ends (fun _ => False) (fun r => (∃ xs, Inv r.1 xs) ∧
        ((∀ id ∈ zs, (st.entries id).device ≠ dev) → r.1.cache = st.cache) ∧
        ((¬ NoNull st ∨ ∃ id ∈ zs, (st.entries id).device = dev) → ¬ NoNull r.1))
      (flushLoop dv dev fuel st zs.head?) := by
  refine Inv.flushLoop_rule (Q := fun zs st st' => (∃ xs, Inv st' xs) ∧
    ((∀ id ∈ zs, (st.entries id).device ≠ dev) → st'.cache = st.cache) ∧
    ((¬ NoNull st ∨ ∃ id ∈ zs, (st.entries id).device = dev) → ¬ NoNull st')) ?_ ?_ ?_ h
  · exact fun h => ⟨⟨_, h⟩, fun _ => rfl, by simp⟩
  · -- a null pointer stays in the map
    rintro st st' ys zs id h hdev ⟨hinv, -, hnull⟩
    have hdrop := ((h.disk (dv.writeBlock st.disk dev (st.entries id).blockNum
      ((st.entries id).data.take (st.entries id).blockSize))).drop hdev).2
    exact ⟨hinv, fun hall => absurd hdev (hall id List.mem_cons_self),
      fun _ => hnull (.inl hdrop)⟩
  · rintro st st' zs id hdev ⟨hinv, hsame, hnull⟩
    refine ⟨hinv, fun hall => hsame fun j hj => hall j (List.mem_cons_of_mem _ hj), ?_⟩
    rintro (hst | ⟨j, hj, hjdev⟩)
    · exact hnull (.inl hst)
    · rcases List.mem_cons.mp hj with rfl | hj
      · exact absurd hjdev hdev
      · exact hnull (.inr ⟨j, hj, hjdev⟩)

/-- The cache has no block of the device. -/
def Clear (st : SharedCache δ) (dev : Nat) : Prop := ∀ b, st.blockLookup dev b = none

theorem Inv.clear_iff (h : Inv st xs) (dev : Nat) :
    Clear st dev ↔ ∀ id ∈ xs, (st.entries id).device ≠ dev := by
  constructor
  · intro hclear id hid hdev
    have hlook : st.blockLookup dev (st.entries id).blockNum = some id :=
      Option.join_eq_some_iff.mpr (hdev ▸ h.find id hid)
    rw [hclear] at hlook
    cases hlook
  · intro hall b
    cases hlook : st.blockLookup dev b with
    | none => rfl
    | some id =>
        obtain ⟨hid, hkey⟩ := h.lookup hlook
        exact absurd (congrArg Prod.fst hkey) (hall id hid)

/-- **`flush`**: there is no new null pointer exactly where the cache has no block of the
device. -/
theorem Inv.flush (h : Inv st xs) (dev : Nat) :
    Ends (fun _ => False) (fun r => (∃ xs, Inv r.1 xs) ∧
        (NoNull r.1 ↔ NoNull st ∧ Clear st dev)) (flush dv fuel st dev) := by
  rw [SharedCache.flush, h.holds.lru_eq]
  have h' : Inv st ([] ++ xs) := h
  refine h'.flushLoop.mono (fun _ => id) ?_
  rintro r ⟨hinv, hsame, hnull⟩
  rw [h.clear_iff]
  refine ⟨hinv, fun hr => ?_, fun ⟨hst, hall⟩ k => hsame hall ▸ hst k⟩
  by_contra hnot
  refine hnull ?_ hr
  by_cases hst : NoNull st
  · right
    by_contra hnone
    exact hnot ⟨hst, fun id hid hdev => hnone ⟨id, hid, hdev⟩⟩
  · exact .inl hst

/-! ## §8. Runs. -/

/-- **The bookkeeping of the cache**: every key of the map has a block that is not deleted, is on
the list and has the device and the number of the key; every block on the list (where none is
twice) is in the map under exactly one key; and the map has at most `max_blocks` entries. -/
def Bookkeeping (st : SharedCache δ) : Prop :=
  ∃ xs, st.blocks.Holds xs ∧
    (∀ k p, st.cache.find k = some p → ∃ id, p = some id ∧ st.live id = true ∧ id ∈ xs ∧
      (st.entries id).device = k.1 ∧ (st.entries id).blockNum = k.2) ∧
    (∀ id ∈ xs, st.live id = true ∧ ∃! k, st.cache.find k = some (some id)) ∧
    st.cache.size ≤ st.maxBlocks

/-- It is the invariant without null pointers. -/
theorem Inv.bookkeeping_iff_noNull (h : Inv st xs) : Bookkeeping st ↔ NoNull st := by
  constructor
  · rintro ⟨ys, -, hkeys, -, -⟩ k hk
    obtain ⟨id, hid, -⟩ := hkeys k none hk
    cases hid
  · intro hnull
    refine ⟨xs, h.holds, fun k p hk => ?_, fun id hid => ⟨h.live id hid, ?_⟩, h.size⟩
    · cases p with
      | none => exact absurd hk (hnull k)
      | some id =>
          obtain ⟨hid, rfl⟩ := h.listed k id hk
          exact ⟨id, rfl, h.live id hid, hid, rfl, rfl⟩
    · exact ⟨key (st.entries id), h.find id hid, fun k hk => (h.listed k id hk).2.symm⟩

/-- The device is not flushed while the cache has blocks of it. -/
def Spared (st : SharedCache δ) : SharedCall → Prop
  | .read .. => True
  | .write .. => True
  | .flush dev => Clear st dev

/-- **One call**: it keeps the invariant, and makes a null pointer exactly if it is a flush of a
device that the cache has blocks of. -/
theorem Inv.step (h : Inv st xs) {c : SharedCall} (hstep : step dv fuel st c = some st') :
    (∃ ys, Inv st' ys) ∧ (NoNull st → Spared st c → NoNull st') ∧ (NoNull st' → Spared st c) := by
  cases c with
  | read device b buffer n size =>
      have hkept : Kept st st' := Ends.ended (h.cachedRead.map fun _ hr => hr) hstep
      exact ⟨hkept.1, fun hnull _ => hkept.2 hnull, fun _ => trivial⟩
  | write device b data n size =>
      have hkept : Kept st st' :=
        Ends.ended ((h.cachedWrite size.toNat_lt).map fun _ hr => hr) hstep
      exact ⟨hkept.1, fun hnull _ => hkept.2 hnull, fun _ => trivial⟩
  | flush dev =>
      have hflush := Ends.ended
        (P := fun st' => (∃ ys, Inv st' ys) ∧ (NoNull st' ↔ NoNull st ∧ Clear st dev))
        ((h.flush dev).quiet.map fun _ hr => hr) hstep
      exact ⟨hflush.1, fun hnull hclear => hflush.2.mpr ⟨hnull, hclear⟩,
        fun hnull => (hflush.2.mp hnull).2⟩

theorem run_append (cs cs' : List SharedCall) :
    run dv fuel st (cs ++ cs') = (run dv fuel st cs).bind fun st => run dv fuel st cs' := by
  induction cs generalizing st with
  | nil => rfl
  | cons c cs ih =>
      rw [List.cons_append, run, run]
      cases step dv fuel st c with
      | none => rfl
      | some st => exact ih

/-- The invariant holds after any calls. -/
theorem Inv.run (h : Inv st xs) {cs : List SharedCall} (hrun : run dv fuel st cs = some st') :
    ∃ ys, Inv st' ys := by
  induction cs generalizing st xs with
  | nil =>
      cases hrun
      exact ⟨xs, h⟩
  | cons c cs ih =>
      obtain ⟨st₁, hstep, hrun⟩ := Option.bind_eq_some_iff.mp hrun
      obtain ⟨⟨ys, h₁⟩, -⟩ := h.step hstep
      exact ih h₁ hrun

/-- **The bookkeeping is right after every call exactly when no device is flushed while the cache
has blocks of it**, whatever the calls, the devices and the size of the cache are. -/
theorem bookkeeping_iff (dv : Devices δ) (fuel nBlocks : Nat) (disk : δ) (cs : List SharedCall) :
    (∀ before after st, cs = before ++ after → run dv fuel (new nBlocks disk) before = some st →
        Bookkeeping st) ↔
      ∀ before c after st st', cs = before ++ c :: after →
        run dv fuel (new nBlocks disk) before = some st → step dv fuel st c = some st' →
        Spared st c := by
  constructor
  · -- a call after which the bookkeeping is right has spared the device that it flushed
    rintro hall before c after st st' rfl hrun hstep
    obtain ⟨xs, hinv⟩ := (inv_new nBlocks disk).run hrun
    obtain ⟨⟨ys, hinv'⟩, -, hspared⟩ := hinv.step hstep
    refine hspared (hinv'.bookkeeping_iff_noNull.mp (hall (before ++ [c]) after st' (by simp) ?_))
    rw [run_append, hrun]
    show (step dv fuel st c).bind _ = some st'
    rw [hstep]
    rfl
  · -- each call that spares its device leaves the map without null pointers
    intro hall before
    induction before using List.reverseRecOn with
    | nil =>
        rintro after st rfl hrun
        cases hrun
        exact (inv_new nBlocks disk).bookkeeping_iff_noNull.mpr fun k hk => by simp [new] at hk
    | append_singleton before c ih =>
        rintro after st rfl hrun
        rw [run_append] at hrun
        obtain ⟨st₀, hbefore, hrun⟩ := Option.bind_eq_some_iff.mp hrun
        obtain ⟨st₁, hstep, hnil⟩ := Option.bind_eq_some_iff.mp hrun
        cases hnil
        obtain ⟨xs, hinv⟩ := (inv_new nBlocks disk).run hbefore
        obtain ⟨⟨ys, hinv'⟩, hnull, -⟩ := hinv.step hstep
        have hst₀ := ih ([c] ++ after) st₀ (by simp) hbefore
        refine hinv'.bookkeeping_iff_noNull.mpr (hnull (hinv.bookkeeping_iff_noNull.mp hst₀) ?_)
        exact hall before c after st₀ st (by simp) hbefore hstep

/-- A device that takes what is written and reads nothing. -/
def sink : Devices Unit :=
  ⟨fun _ => true, fun _ _ _ n buffer => ((buffer, n), ()), fun _ _ _ _ => ()⟩

/-- **A block is written and flushed**: its key stays in the map with a null pointer. -/
theorem flush_leaves_null :
    ∃ st, run sink 10 (new 256 ()) [.write 1 0 [7] 1 1, .flush 1] = some st ∧
      st.cache.find (1, 0) = some none ∧ ¬ Bookkeeping st := by
  refine ⟨_, rfl, rfl, ?_⟩
  rintro ⟨xs, -, hkeys, -, -⟩
  obtain ⟨id, hid, -⟩ := hkeys (1, 0) none rfl
  cases hid

end SharedCache

end Metta.MettaFs
