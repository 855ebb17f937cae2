/-
  Metta.MettaFs.LruList — the list of blocks of the cache, from its links.

  The links are those of a cyclic list whose head is the null pointer: then `link_at_mru` is
  `insert_before` the head, `link_at_lru` is `insert_before` the first block, and `unlink_from`
  is `remove`.  Blocks that are not on the list keep their links, so they may be on another one.

    • `links` — the cyclic list, `ring_linkAtMru`, `ring_linkAtLru`, `ring_unlinkFrom`,
    • `linkAtMru_frame`, `linkAtLru_frame`, `unlinkFrom_frame` — the other blocks,
    • `WellFormed` — a list as its users see it, `wellFormed_iff_ring`,
    • `Op`, `run`, `listed` — sequences of the operations, and what they do to a list,
    • `run_listed` — a sequence of operations does to the links what it does to the list.
-/
import Metta.MettaFs.Devices
import Metta.Machine.DLList

namespace Metta.MettaFs

open Metta.Machine

namespace LruList

variable {l : LruList} {xs ys zs : List Nat} {id : Nat}

/-! ## §1. The fields after an operation. -/

/-- A link that is set, and the fields that are not. -/
theorem setNextMru_eq (l : LruList) (blk n : Option Nat) :
    l.setNextMru blk n = { l with nextMru := fun y => if blk = some y then n else l.nextMru y } := by
  cases blk with
  | none => simp [setNextMru]
  | some i =>
      simp only [setNextMru, Option.some.injEq, LruList.mk.injEq, true_and, and_true]
      funext y
      simp [Function.update_apply, eq_comm]

theorem setPrevLru_eq (l : LruList) (blk p : Option Nat) :
    l.setPrevLru blk p = { l with prevLru := fun y => if blk = some y then p else l.prevLru y } := by
  cases blk with
  | none => simp [setPrevLru]
  | some i =>
      simp only [setPrevLru, Option.some.injEq, LruList.mk.injEq, true_and]
      funext y
      simp [Function.update_apply, eq_comm]

/-- The links after `link_at_mru`, which passes its assertions. -/
theorem linkAtMru_eq (hprev : l.prevLru id = none) (hnext : l.nextMru id = none) :
    l.linkAtMru id = some
      { mru := some id,
        lru := if l.lru = none then some id else l.lru,
        nextMru := fun y => if l.mru = some y then some id else l.nextMru y,
        prevLru := fun y => if some id = some y then l.mru else l.prevLru y } := by
  unfold linkAtMru
  rw [if_pos ⟨hprev, hnext⟩]
  simp only [setNextMru_eq, setPrevLru_eq, Option.isSome_iff_ne_none, Option.isNone_iff_eq_none]
  cases hm : l.mru with
  | some m => cases hl : l.lru <;> simp
  | none =>
      -- nothing to link to, and the link of the block is null already
      have hkeep : (fun y => if id = y then none else l.prevLru y) = l.prevLru := by
        funext y
        by_cases hy : id = y
        · rw [if_pos hy, ← hy, hprev]
        · rw [if_neg hy]
      cases hl : l.lru <;> simp [hl, hkeep]

/-- The links after `link_at_lru`, which passes its assertions. -/
theorem linkAtLru_eq (hprev : l.prevLru id = none) (hnext : l.nextMru id = none) :
    l.linkAtLru id = some
      { mru := if l.mru = none then some id else l.mru,
        lru := some id,
        nextMru := fun y => if some id = some y then l.lru else l.nextMru y,
        prevLru := fun y => if l.lru = some y then some id else l.prevLru y } := by
  unfold linkAtLru
  rw [if_pos ⟨hprev, hnext⟩]
  simp only [setNextMru_eq, setPrevLru_eq, Option.isSome_iff_ne_none, Option.isNone_iff_eq_none]
  cases hl : l.lru with
  | some m => cases hm : l.mru <;> simp
  | none =>
      have hkeep : (fun y => if id = y then none else l.nextMru y) = l.nextMru := by
        funext y
        by_cases hy : id = y
        · rw [if_pos hy, ← hy, hnext]
        · rw [if_neg hy]
      cases hm : l.mru <;> simp [hm, hkeep]

/-- The links after `unlink_from`, of a block that is not linked to itself. -/
theorem unlinkFrom_eq (hp : l.prevLru id ≠ some id) (hn : l.nextMru id ≠ some id) :
    l.unlinkFrom id =
      { mru := if l.mru = some id then l.prevLru id else l.mru,
        lru := if l.lru = some id then l.nextMru id else l.lru,
        nextMru := fun y => if some id = some y then none
          else if l.prevLru id = some y then l.nextMru id else l.nextMru y,
        prevLru := fun y => if some id = some y then none
          else if l.nextMru id = some y then l.prevLru id else l.prevLru y } := by
  simp only [unlinkFrom, setNextMru_eq, setPrevLru_eq, if_neg hp]
  by_cases hl : l.lru = some id
  · by_cases hm : l.mru = some id
    · simp only [if_pos hl, if_pos hm, if_neg hn]
    · simp only [if_pos hl, if_neg hm]
  · by_cases hm : l.mru = some id
    · simp only [if_neg hl, if_pos hm, if_neg hn]
    · simp only [if_neg hl, if_neg hm]

/-! ## §2. The cyclic list. -/

/-- The links as those of a cyclic list whose head is the null pointer. -/
def links (l : LruList) : Links (Option Nat) Unit
  | none => ⟨l.lru, l.mru, none⟩
  | some id => ⟨l.nextMru id, l.prevLru id, none⟩

/-- `xs` are the blocks from the least recently used one on. -/
abbrev IsRing (l : LruList) (xs : List Nat) : Prop := Links.Ring l.links none (xs.map some)

theorem IsRing.nodup (h : l.IsRing xs) : xs.Nodup :=
  List.Nodup.of_map some (List.nodup_cons.mp (Links.Ring.nodup h)).2

theorem IsRing.mem_of_mru (h : l.IsRing xs) (hmru : l.mru = some id) : id ∈ xs := by
  have hlast := h.seg.prev_eq
  rw [show (l.links none).prev = some id from hmru] at hlast
  have hmem : some id ∈ none :: xs.map some := hlast ▸ List.getLast_mem _
  simpa using hmem

theorem IsRing.mem_of_lru (h : l.IsRing xs) (hlru : l.lru = some id) : id ∈ xs := by
  have hfirst := h.seg.next_eq
  rw [show (l.links none).next = some id from hlru] at hfirst
  cases xs with
  | nil => cases hfirst
  | cons x xs =>
      cases hfirst
      exact List.mem_cons_self

/-- One end is null when the other is. -/
theorem IsRing.mru_eq_none_iff (h : l.IsRing xs) : l.mru = none ↔ l.lru = none := by
  constructor
  · intro hmru
    have := h.next_prev List.mem_cons_self
    rwa [show (l.links none).prev = none from hmru] at this
  · intro hlru
    have := h.prev_next List.mem_cons_self
    rwa [show (l.links none).next = none from hlru] at this

/-- A block at an end of the list has a null link there. -/
theorem IsRing.lru_eq_iff (h : l.IsRing xs) (hid : id ∈ xs) :
    l.lru = some id ↔ l.prevLru id = none := by
  constructor
  · intro heq
    have := h.prev_next (x := none) List.mem_cons_self
    rwa [show (l.links none).next = some id from heq] at this
  · intro heq
    have := h.next_prev (x := some id) (by simpa using hid)
    rwa [show (l.links (some id)).prev = none from heq] at this

theorem IsRing.mru_eq_iff (h : l.IsRing xs) (hid : id ∈ xs) :
    l.mru = some id ↔ l.nextMru id = none := by
  constructor
  · intro heq
    have := h.next_prev (x := none) List.mem_cons_self
    rwa [show (l.links none).prev = some id from heq] at this
  · intro heq
    have := h.prev_next (x := some id) (by simpa using hid)
    rwa [show (l.links (some id)).next = none from heq] at this

/-- The cyclic list around one of its blocks. -/
theorem IsRing.around (h : l.IsRing (ys ++ id :: zs)) :
    Links.Ring l.links none (ys.map some ++ some id :: zs.map some) := by
  rw [← List.map_cons, ← List.map_append]
  exact h

theorem IsRing.notMem (h : l.IsRing (ys ++ id :: zs)) : id ∉ ys ++ zs := by
  have hnd := h.nodup
  rw [List.nodup_middle, List.nodup_cons] at hnd
  exact hnd.1

/-- A block is never its own neighbour. -/
theorem IsRing.nextMru_ne (h : l.IsRing xs) (hid : id ∈ xs) : l.nextMru id ≠ some id := by
  obtain ⟨ys, zs, rfl⟩ := List.append_of_mem hid
  have hnext := h.around.next_elem
  intro heq
  unfold Links.next at hnext
  rw [if_pos (show (l.links (some id)).next = some id from heq)] at hnext
  cases hnext

theorem IsRing.prevLru_ne (h : l.IsRing xs) (hid : id ∈ xs) : l.prevLru id ≠ some id := by
  intro heq
  have hback := h.next_prev (x := some id) (by simpa using hid)
  rw [show (l.links (some id)).prev = some id from heq] at hback
  exact h.nextMru_ne hid hback

/-! ## §3. The operations on the cyclic list. -/

/-- No links, and not on the list: the only block of a list has null links too. -/
structure Unlinked (l : LruList) (xs : List Nat) (id : Nat) : Prop where
  prevLru : l.prevLru id = none
  nextMru : l.nextMru id = none
  notMem : id ∉ xs

/-- `link_at_mru` is `insert_before` the null pointer. -/
theorem ring_linkAtMru (h : l.IsRing xs) (hid : l.Unlinked xs id) :
    ∃ l', l.linkAtMru id = some l' ∧ l'.IsRing (xs ++ [id]) := by
  apply Exists.intro
  apply And.intro (linkAtMru_eq hid.prevLru hid.nextMru)
  have hmem : some id ∉ none :: (xs.map some ++ []) := by simpa using hid.notMem
  have hold : Links.Ring l.links none (xs.map some ++ []) := by
    rw [List.append_nil]
    exact h
  have hring := hold.insertBefore hmem
  unfold IsRing
  rw [List.map_append]
  apply hring.congr
  intro x _
  rw [Links.insertBefore_next _ (by simp), Links.insertBefore_prev _ (by simp)]
  cases x with
  | none =>
      constructor
      · show (if l.lru = none then some id else l.lru) = if none = l.mru then some id else l.lru
        simp only [eq_comm, h.mru_eq_none_iff]
      · rfl
  | some y =>
      constructor
      · show (if l.mru = some y then some id else l.nextMru y)
          = if some y = l.mru then some id else if some y = some id then none else l.nextMru y
        by_cases hy : y = id
        · simp only [hy, hid.nextMru, eq_comm, ite_self]
        · rw [if_neg (c := some y = some id) fun heq => hy (Option.some.inj heq)]
          exact if_congr eq_comm rfl rfl
      · show (if some id = some y then l.mru else l.prevLru y)
          = if some y = none then some id else if some y = some id then l.mru else l.prevLru y
        simp only [reduceCtorEq, if_false, eq_comm]

/-- `link_at_lru` is `insert_before` the first block. -/
theorem ring_linkAtLru (h : l.IsRing xs) (hid : l.Unlinked xs id) :
    ∃ l', l.linkAtLru id = some l' ∧ l'.IsRing (id :: xs) := by
  apply Exists.intro
  apply And.intro (linkAtLru_eq hid.prevLru hid.nextMru)
  have hmem : some id ∉ none :: ([] ++ xs.map some) := by simpa using hid.notMem
  have hold : Links.Ring l.links none ([] ++ xs.map some) := h
  have hring := hold.insertBefore hmem
  have hfirst : (xs.map some).head?.getD none = l.lru := h.seg.next_eq.symm
  have hback : (l.links l.lru).prev = none := h.prev_next List.mem_cons_self
  have hne : some id ≠ l.lru := fun heq => hid.notMem (h.mem_of_lru heq.symm)
  rw [hfirst] at hring
  apply hring.congr
  intro x _
  rw [Links.insertBefore_next _ hne, Links.insertBefore_prev _ hne, hback]
  cases x with
  | none =>
      constructor
      · rfl
      · show (if l.mru = none then some id else l.mru) = if none = l.lru then some id else l.mru
        simp only [eq_comm, h.mru_eq_none_iff]
  | some y =>
      constructor
      · show (if some id = some y then l.lru else l.nextMru y)
          = if some y = none then some id else if some y = some id then l.lru else l.nextMru y
        simp only [reduceCtorEq, if_false, eq_comm]
      · show (if l.lru = some y then some id else l.prevLru y)
          = if some y = l.lru then some id else if some y = some id then none else l.prevLru y
        by_cases hy : y = id
        · simp only [hy, hid.prevLru, eq_comm, ite_self]
        · rw [if_neg (c := some y = some id) fun heq => hy (Option.some.inj heq)]
          exact if_congr eq_comm rfl rfl

/-- `unlink_from` is `remove`, but for the links of the block itself. -/
theorem ring_unlinkFrom (h : l.IsRing (ys ++ id :: zs)) : (l.unlinkFrom id).IsRing (ys ++ zs) := by
  have hmem : id ∈ ys ++ id :: zs := by simp
  have hn := h.nextMru_ne hmem
  have hremove := h.around.remove
  rw [← List.map_append] at hremove
  rw [unlinkFrom_eq (h.prevLru_ne hmem) hn]
  apply hremove.congr
  intro x hx
  rw [Links.remove_next _ hn, Links.remove_prev]
  cases x with
  | none =>
      simp only [links, h.lru_eq_iff hmem, h.mru_eq_iff hmem, eq_comm]
      exact ⟨by congr, by congr⟩
  | some y =>
      have hy : id ≠ y := fun heq => h.notMem (by simpa [heq] using hx)
      simp only [links, Option.some.injEq, hy, if_false, eq_comm]
      exact ⟨by congr, by congr⟩

/-! ## §4. The other blocks. -/

/-- A block off the list keeps its links when another one is linked. -/
theorem linkAtMru_frame {l' : LruList} (h : l.IsRing xs) (hid : l.Unlinked xs id)
    (hl' : l.linkAtMru id = some l') {y : Nat} (hy : y ∉ xs) (hne : y ≠ id) :
    l'.prevLru y = l.prevLru y ∧ l'.nextMru y = l.nextMru y := by
  rw [linkAtMru_eq hid.prevLru hid.nextMru, Option.some.injEq] at hl'
  rw [← hl']
  have hmru : l.mru ≠ some y := fun heq => hy (h.mem_of_mru heq)
  exact ⟨if_neg fun heq => hne (Option.some.inj heq).symm, if_neg hmru⟩

theorem linkAtLru_frame {l' : LruList} (h : l.IsRing xs) (hid : l.Unlinked xs id)
    (hl' : l.linkAtLru id = some l') {y : Nat} (hy : y ∉ xs) (hne : y ≠ id) :
    l'.prevLru y = l.prevLru y ∧ l'.nextMru y = l.nextMru y := by
  rw [linkAtLru_eq hid.prevLru hid.nextMru, Option.some.injEq] at hl'
  rw [← hl']
  have hlru : l.lru ≠ some y := fun heq => hy (h.mem_of_lru heq)
  exact ⟨if_neg hlru, if_neg fun heq => hne (Option.some.inj heq).symm⟩

/-- A block off the list keeps its links when one is unlinked, which then has none. -/
theorem unlinkFrom_frame (h : l.IsRing (ys ++ id :: zs)) {y : Nat} (hy : y ∉ ys ++ id :: zs) :
    (l.unlinkFrom id).prevLru y = l.prevLru y ∧ (l.unlinkFrom id).nextMru y = l.nextMru y := by
  have hmem : id ∈ ys ++ id :: zs := by simp
  have hframe := h.around.remove_frame (y := some y) (by
    rw [← List.map_cons, ← List.map_append]
    simpa using hy)
  rw [Links.remove_next _ (h.nextMru_ne hmem), Links.remove_prev] at hframe
  have hne : some id ≠ some y := by
    intro heq
    exact hy (Option.some.inj heq ▸ hmem)
  rw [unlinkFrom_eq (h.prevLru_ne hmem) (h.nextMru_ne hmem)]
  constructor
  · show (if some id = some y then none
      else if l.nextMru id = some y then l.prevLru id else l.prevLru y) = l.prevLru y
    rw [if_neg hne]
    exact (if_congr eq_comm rfl rfl).trans hframe.2
  · show (if some id = some y then none
      else if l.prevLru id = some y then l.nextMru id else l.nextMru y) = l.nextMru y
    rw [if_neg hne]
    exact (if_congr eq_comm rfl rfl).trans hframe.1

theorem unlinkFrom_unlinked (h : l.IsRing (ys ++ id :: zs)) :
    (l.unlinkFrom id).Unlinked (ys ++ zs) id where
  prevLru := by simp [unlinkFrom, setPrevLru]
  nextMru := by simp [unlinkFrom, setNextMru, setPrevLru]
  notMem := h.notMem

/-! ## §5. A list as its users see it. -/

/-- From `lru` to `mru` through `next_mru` the blocks are `xs`, and back through `prev_lru`; both
ends are null, and both pointers are null when there is no block. -/
structure WellFormed (l : LruList) (xs : List Nat) : Prop where
  nodup : xs.Nodup
  lru : l.lru = xs.head?
  mru : l.mru = xs.getLast?
  nextMru : ∀ ys id zs, xs = ys ++ id :: zs → l.nextMru id = zs.head?
  prevLru : ∀ ys id zs, xs = ys ++ id :: zs → l.prevLru id = ys.getLast?

theorem head?_map_some (xs : List Nat) : (xs.map some).head?.getD none = xs.head? := by
  cases xs with
  | nil => rfl
  | cons x xs => rfl

theorem getLast_map_some (xs : List Nat) :
    (none :: xs.map some).getLast (List.cons_ne_nil _ _) = xs.getLast? := by
  cases hlast : xs.getLast? with
  | none =>
      have hnil : xs = [] := List.getLast?_eq_none_iff.mp hlast
      subst hnil
      rfl
  | some a =>
      have hsplit : ∃ ys, xs = ys ++ [a] := List.getLast?_eq_some_iff.mp hlast
      obtain ⟨ys, rfl⟩ := hsplit
      simp

/-- What stands at a place of the list, seen from both sides; null is before the first block and
behind the last one. -/
theorem WellFormed.next_getLast (h : l.WellFormed xs) (hxs : xs = ys ++ zs) :
    (l.links ys.getLast?).next = zs.head? := by
  cases hlast : ys.getLast? with
  | none =>
      have hnil : ys = [] := List.getLast?_eq_none_iff.mp hlast
      subst hnil
      show l.lru = zs.head?
      rw [h.lru, hxs, List.nil_append]
  | some a =>
      have hsplit : ∃ ws, ys = ws ++ [a] := List.getLast?_eq_some_iff.mp hlast
      obtain ⟨ws, rfl⟩ := hsplit
      show l.nextMru a = zs.head?
      apply h.nextMru ws
      rw [hxs, List.append_assoc, List.singleton_append]

theorem WellFormed.prev_head (h : l.WellFormed xs) (hxs : xs = ys ++ zs) :
    (l.links zs.head?).prev = ys.getLast? := by
  cases zs with
  | nil =>
      show l.mru = ys.getLast?
      rw [h.mru, hxs, List.append_nil]
  | cons z zs => exact h.prevLru ys z zs hxs

/-- A list is well formed when it is one of the cyclic lists through null. -/
theorem wellFormed_iff_ring : l.WellFormed xs ↔ l.IsRing xs := by
  constructor
  · intro h
    constructor
    · rw [List.nodup_cons]
      exact ⟨by simp, h.nodup.map (Option.some_injective _)⟩
    · -- by induction on the blocks that are still to come
      have hseg : ∀ zs ys, xs = ys ++ zs → Links.Seg l.links ys.getLast? (zs.map some) none := by
        intro zs
        induction zs with
        | nil =>
            intro ys hxs
            exact ⟨h.next_getLast hxs, h.prev_head hxs⟩
        | cons z zs ih =>
            intro ys hxs
            have hrest := ih (ys ++ [z]) (by rw [hxs, List.append_assoc, List.singleton_append])
            rw [List.getLast?_append, List.getLast?_singleton, Option.some_or] at hrest
            exact ⟨⟨h.next_getLast hxs, h.prev_head hxs⟩, hrest⟩
      exact hseg xs [] rfl
  · intro h
    have hseg : ∀ ys id zs, xs = ys ++ id :: zs →
        Links.Seg l.links none (ys.map some) (some id)
          ∧ Links.Seg l.links (some id) (zs.map some) none := by
      intro ys id zs hxs
      rw [hxs] at h
      exact Links.seg_append.mp h.around.seg
    constructor
    · exact IsRing.nodup h
    · exact h.seg.next_eq.trans (head?_map_some xs)
    · exact h.seg.prev_eq.trans (getLast_map_some xs)
    · intro ys id zs hxs
      exact (hseg ys id zs hxs).2.next_eq.trans (head?_map_some zs)
    · intro ys id zs hxs
      exact (hseg ys id zs hxs).1.prev_eq.trans (getLast_map_some ys)

theorem wellFormed_empty : empty.WellFormed [] := by
  apply wellFormed_iff_ring.mpr
  exact ⟨by simp, rfl, rfl⟩

/-- There is one sequence of blocks that a list represents. -/
theorem WellFormed.unique (h : l.WellFormed xs) (h' : l.WellFormed ys) : xs = ys := by
  have heq := Links.Ring.unique (wellFormed_iff_ring.mp h) (wellFormed_iff_ring.mp h')
  exact List.map_injective_iff.mpr (Option.some_injective _) heq

/-! ## §6. Sequences of operations. -/

/-- An operation of a block on the list. -/
inductive Op where
  | linkAtMru (id : Nat)
  | linkAtLru (id : Nat)
  | unlinkFrom (id : Nat)

/-- The block whose operation it is. -/
def Op.block : Op → Nat
  | linkAtMru id => id
  | linkAtLru id => id
  | unlinkFrom id => id

def step (l : LruList) : Op → Option LruList
  | .linkAtMru id => l.linkAtMru id
  | .linkAtLru id => l.linkAtLru id
  | .unlinkFrom id => some (l.unlinkFrom id)

/-- The operations one after the other; nothing where an assertion fails. -/
def run (l : LruList) : List Op → Option LruList
  | [] => some l
  | op :: ops => (l.step op).bind fun l => run l ops

/-- What an operation does to the sequence of blocks: a block is linked that is not in it, and one
unlinked that is. -/
def Op.listed (xs : List Nat) : Op → Option (List Nat)
  | linkAtMru id => if id ∈ xs then none else some (xs ++ [id])
  | linkAtLru id => if id ∈ xs then none else some (id :: xs)
  | unlinkFrom id => if id ∈ xs then some (xs.erase id) else none

def listed (xs : List Nat) : List Op → Option (List Nat)
  | [] => some xs
  | op :: ops => (op.listed xs).bind fun xs => listed xs ops

/-- The list is `xs`, and the other ones of `blocks` are unlinked. -/
structure Among (l : LruList) (blocks : Set Nat) (xs : List Nat) : Prop where
  ring : l.IsRing xs
  unlinked : ∀ id ∈ blocks, id ∉ xs → l.Unlinked xs id

variable {blocks : Set Nat}

/-- The blocks that are not on the list stay unlinked when another one is put on it. -/
theorem Among.link {l' : LruList} (h : l.Among blocks xs) (id : Nat) (hring : l'.IsRing ys)
    (hys : ∀ y, y ∈ ys ↔ y ∈ xs ∨ y = id)
    (hframe : ∀ y ∉ xs, y ≠ id → l'.prevLru y = l.prevLru y ∧ l'.nextMru y = l.nextMru y) :
    l'.Among blocks ys where
  ring := hring
  unlinked y hy hout := by
    have hxs := hout
    rw [hys, not_or] at hxs
    have hkeep := hframe y hxs.1 hxs.2
    have hold := h.unlinked y hy hxs.1
    exact ⟨hkeep.1.trans hold.prevLru, hkeep.2.trans hold.nextMru, hout⟩

/-- Neither does one of them change when one is taken off, which is unlinked itself then. -/
theorem Among.unlink (h : l.Among blocks (ys ++ id :: zs)) :
    (l.unlinkFrom id).Among blocks (ys ++ zs) where
  ring := ring_unlinkFrom h.ring
  unlinked y hy hout := by
    by_cases hyid : y = id
    · rw [hyid]
      exact unlinkFrom_unlinked h.ring
    · have hyxs : y ∉ ys ++ id :: zs := by
        simp only [List.mem_append, List.mem_cons, not_or] at hout ⊢
        exact ⟨hout.1, hyid, hout.2⟩
      have hkeep := unlinkFrom_frame h.ring hyxs
      have hold := h.unlinked y hy hyxs
      exact ⟨hkeep.1.trans hold.prevLru, hkeep.2.trans hold.nextMru, hout⟩

/-- **One operation** does to the links what it does to the sequence of blocks. -/
theorem Among.step {op : Op} (h : l.Among blocks xs) (hop : op.block ∈ blocks)
    (hys : op.listed xs = some ys) : ∃ l', l.step op = some l' ∧ l'.Among blocks ys := by
  cases op with
  | linkAtMru id =>
      rw [Op.listed] at hys
      split_ifs at hys with hid
      cases hys
      have hun := h.unlinked id hop hid
      obtain ⟨l', hl', hring⟩ := ring_linkAtMru h.ring hun
      apply Exists.intro l'
      apply And.intro hl'
      apply h.link id hring
      · intro y
        rw [List.mem_append, List.mem_singleton]
      · intro y hy hne
        exact linkAtMru_frame h.ring hun hl' hy hne
  | linkAtLru id =>
      rw [Op.listed] at hys
      split_ifs at hys with hid
      cases hys
      have hun := h.unlinked id hop hid
      obtain ⟨l', hl', hring⟩ := ring_linkAtLru h.ring hun
      apply Exists.intro l'
      apply And.intro hl'
      apply h.link id hring
      · intro y
        rw [List.mem_cons, or_comm]
      · intro y hy hne
        exact linkAtLru_frame h.ring hun hl' hy hne
  | unlinkFrom id =>
      rw [Op.listed] at hys
      split_ifs at hys with hid
      cases hys
      obtain ⟨ys, zs, rfl⟩ := List.append_of_mem hid
      have hnot : id ∉ ys := fun hmem => h.ring.notMem (List.mem_append_left zs hmem)
      rw [List.erase_append_right _ hnot, List.erase_cons_head]
      exact ⟨l.unlinkFrom id, rfl, h.unlink⟩

/-- **A sequence of operations** does to the links what it does to the sequence of blocks. -/
theorem Among.run {ops : List Op} (h : l.Among blocks xs) (hops : ∀ op ∈ ops, op.block ∈ blocks)
    (hys : listed xs ops = some ys) : ∃ l', l.run ops = some l' ∧ l'.Among blocks ys := by
  induction ops generalizing l xs with
  | nil =>
      cases hys
      exact ⟨l, rfl, h⟩
  | cons op ops ih =>
      unfold listed at hys
      unfold LruList.run
      cases hop : op.listed xs with
      | none =>
          rw [hop] at hys
          cases hys
      | some zs =>
          rw [hop] at hys
          obtain ⟨m, hm, hamong⟩ := h.step (hops op List.mem_cons_self) hop
          rw [hm]
          exact ih hamong (fun op' hop' => hops op' (List.mem_cons_of_mem op hop')) hys

/-- **The operations keep a doubly linked list**: each on its own, and any sequence of them. -/
theorem wellFormed_operations (h : l.WellFormed xs) :
    (∀ id, l.Unlinked xs id → ∃ l', l.linkAtMru id = some l' ∧ l'.WellFormed (xs ++ [id]))
    ∧ (∀ id, l.Unlinked xs id → ∃ l', l.linkAtLru id = some l' ∧ l'.WellFormed (id :: xs))
    ∧ (∀ ys id zs, xs = ys ++ id :: zs →
        (l.unlinkFrom id).WellFormed (ys ++ zs) ∧ (l.unlinkFrom id).Unlinked (ys ++ zs) id)
    ∧ ∀ ops ys, (∀ op ∈ ops, op.block ∉ xs → l.Unlinked xs op.block) → listed xs ops = some ys →
        ∃ l', l.run ops = some l' ∧ l'.WellFormed ys := by
  have hring : l.IsRing xs := wellFormed_iff_ring.mp h
  constructor
  · intro id hid
    obtain ⟨l', hl', hring'⟩ := ring_linkAtMru hring hid
    exact ⟨l', hl', wellFormed_iff_ring.mpr hring'⟩
  constructor
  · intro id hid
    obtain ⟨l', hl', hring'⟩ := ring_linkAtLru hring hid
    exact ⟨l', hl', wellFormed_iff_ring.mpr hring'⟩
  constructor
  · intro ys id zs hxs
    rw [hxs] at hring
    exact ⟨wellFormed_iff_ring.mpr (ring_unlinkFrom hring), unlinkFrom_unlinked hring⟩
  · intro ops ys hun hys
    have hamong : l.Among {id | ∃ op ∈ ops, op.block = id} xs := by
      constructor
      · exact hring
      · intro id hid hout
        obtain ⟨op, hop, rfl⟩ := hid
        exact hun op hop hout
    obtain ⟨l', hl', hamong'⟩ := hamong.run (fun op hop => ⟨op, hop, rfl⟩) hys
    exact ⟨l', hl', wellFormed_iff_ring.mpr hamong'.ring⟩

/-- Blocks 1 and 2 at the end and 3 before them; then 1 is taken out of the middle. -/
theorem wellFormed_operations_three :
    ∃ l', empty.run [.linkAtMru 1, .linkAtMru 2, .linkAtLru 3, .unlinkFrom 1] = some l'
      ∧ l'.WellFormed [3, 2] :=
  (wellFormed_operations wellFormed_empty).2.2.2 _ _ (fun _ _ hout => ⟨rfl, rfl, hout⟩) rfl

end LruList

end Metta.MettaFs
