/-
  Metta.StretchAllocatorMod.Partition — free regions and granted ranges share
  out the address space.

  The invariant counts pages: every page of the address space is in exactly
  one free region or granted range.  Each way of carving a region replaces its
  extent by that of the grant and of what is left (`Inv.carve`).

    • `findRegion_spec` — what the search answers,
    • `takeFromStart_cases`, `takeFromRest_cases` — what becomes of a region,
    • `takeFromStart_inv`, `takeFromRest_inv` — the ways to carve,
    • `vmAlloc_inv` — a call, `run_inv` — every run.
-/
import Metta.StretchAllocatorMod.Def
import Metta.FramesMod.Find
import Metta.Machine.Cover
import Metta.Machine.Outcome

namespace Metta.StretchAllocatorMod

open Metta.Machine Links
open Metta.FramesMod (shl32 shr32 alignToFrameWidth unaligned sub32_add32_one)

/-! ## §1. Regions, grants and runs. -/

/-- `xs` is the list of free regions. -/
structure Regions (s : ServerState) (xs : List Nat) : Prop where
  ring : Ring s.links s.regions xs
  base : ∀ x ∈ xs, (s.links x).base = some x

/-- A call that was granted. -/
structure Grant where
  size : Nat
  start : Nat
  range : Range

/-- The pages of a free region. -/
def ServerState.extent (s : ServerState) (x : Nat) : Extent :=
  ⟨(s.desc x).startAddr / pageSize, (s.desc x).nPages⟩

/-- The pages of a granted range. -/
def Grant.extent (g : Grant) : Extent := ⟨g.range.virtAddr / pageSize, g.range.nPages⟩

/-- The number of pages in the address space. -/
def allPages : Nat := 0x100000

/-- A granted range answers its request: whole pages, and the address when one was
asked for. -/
structure Grant.Answers (g : Grant) : Prop where
  aligned : g.range.virtAddr % pageSize = 0
  nPages : g.range.nPages = (g.size + 4095) / 4096
  fixed : unaligned g.start = false → g.range.virtAddr = g.start

/-- **The address space is shared out** among free regions and grants. -/
structure Inv (s : ServerState) (xs : List Nat) (granted : List Grant) : Prop where
  regions : Regions s xs
  aligned : ∀ x ∈ xs, (s.desc x).startAddr % pageSize = 0
  width : ∀ x ∈ xs, (s.desc x).pageWidth = pageWidth
  nonempty : ∀ x ∈ xs, 0 < (s.desc x).nPages
  shares : Shares allPages (xs.map s.extent ++ granted.map Grant.extent)
  answers : ∀ g ∈ granted, g.Answers

/-- The sizes and addresses a caller may ask for. -/
structure Valid (size start : Nat) : Prop where
  pos : 1 ≤ size
  le : size ≤ 2 ^ 32 - 4096
  word : start < wordSize
  place : unaligned start = true ∨ start % pageSize = 0

/-- A region as all calls leave it. -/
structure Fine (d : VirtmemDesc) : Prop where
  aligned : d.startAddr % pageSize = 0
  width : d.pageWidth = pageWidth
  nonempty : 0 < d.nPages
  le : d.startAddr / pageSize + d.nPages ≤ allPages

/-- `new` answers no address that is in the list already. -/
def Fresh (s : ServerState) (new : Option Nat) : Prop :=
  ∀ a, new = some a → ∀ xs, Regions s xs → a ∉ s.regions :: xs

/-- Calls of `vm_alloc` that returned, with what they granted. -/
inductive Run (s₀ : ServerState) : ServerState → List Grant → Prop
  | start : Run s₀ s₀ []
  | call {s s' : ServerState} {granted : List Grant} {size start fuel : Nat} {new : Option Nat}
      {answer : Option Range} : Run s₀ s granted → Valid size start → Fresh s new →
      vmAlloc fuel s size start new = .ok (answer, s') →
      Run s₀ s' ((answer.map (Grant.mk size start)).toList ++ granted)

/-! ## §2. Pages. -/

variable {s s' : ServerState} {xs ys zs : List Nat} {granted : List Grant} {size start r : Nat}

theorem pageUp_eq {x : Nat} (h : x + 4095 < wordSize) : pageUp x = (x + 4095) / 4096 := by
  rw [pageUp, sub32_add32_one (by decide) h]
  rfl

theorem pageUp_aligned {x : Nat} (hx : x < wordSize) (h : x % pageSize = 0) :
    pageUp x = x / pageSize := by
  simp only [pageSize, wordSize] at *
  rw [pageUp_eq (by simp only [wordSize]; omega)]
  omega

theorem alignToFrameWidth_pages (x : Nat) : alignToFrameWidth x pageWidth = pageUp x * pageSize := by
  have hshl : shl32 1 pageWidth = 2 ^ 12 := by decide
  have hlt : sub32 (add32 x (2 ^ 12)) 1 < wordSize := Nat.mod_lt _ (by decide)
  rw [alignToFrameWidth, hshl, and_highMask hlt (by decide)]
  rfl

theorem Valid.no_wrap (v : Valid size start) : size + 4095 < wordSize := by
  have := v.pos
  have := v.le
  simp only [wordSize]
  omega

/-- Every region lies in the address space. -/
theorem Inv.end_le (I : Inv s xs granted) {x : Nat} (hx : x ∈ xs) :
    (s.desc x).startAddr / pageSize + (s.desc x).nPages ≤ allPages :=
  have hmem : s.extent x ∈ xs.map s.extent ++ granted.map Grant.extent :=
    List.mem_append_left _ (List.mem_map_of_mem hx)
  I.shares.end_le hmem (I.nonempty x hx)

theorem Inv.fine (I : Inv s xs granted) {x : Nat} (hx : x ∈ xs) : Fine (s.desc x) :=
  ⟨I.aligned x hx, I.width x hx, I.nonempty x hx, I.end_le hx⟩

/-! ## §3. The search. -/

/-- A turn of the search, at a region. -/
theorem findRegion_cons {fits : VirtmemDesc → Bool} {fuel z : Nat} (R : Regions s (ys ++ z :: zs)) :
    z ≠ s.regions ∧ findRegion s fits (fuel + 1) (some ((z :: zs).head?.getD s.regions)) =
      if fits (s.desc z) then .ok z
      else findRegion s fits fuel (some (zs.head?.getD s.regions)) := by
  have hz : z ≠ s.regions := by
    rintro rfl
    have := R.ring.nodup
    simp at this
  have hbase : (s.links z).base = some z := R.base z (by simp)
  refine ⟨hz, ?_⟩
  simp only [findRegion, List.head?_cons, Option.getD_some, if_neg hz, hbase]
  rw [R.ring.next_elem]

/-- **The search** answers the head or a region that fits. -/
theorem findRegion_spec {fits : VirtmemDesc → Bool} {fuel : Nat} (R : Regions s (ys ++ zs))
    (h : findRegion s fits fuel (some (zs.head?.getD s.regions)) = .ok r) (hr : r ≠ s.regions) :
    ∃ ys' zs', ys ++ zs = ys' ++ r :: zs' ∧ fits (s.desc r) = true := by
  induction zs generalizing ys fuel with
  | nil =>
      cases fuel with
      | zero => cases h
      | succ n =>
          simp only [findRegion, List.head?_nil, Option.getD_none, if_true] at h
          cases h
          exact absurd rfl hr
  | cons z zs ih =>
      cases fuel with
      | zero => cases h
      | succ n =>
          rw [(findRegion_cons R).2] at h
          split_ifs at h with hfits
          · cases h
            exact ⟨ys, zs, rfl, hfits⟩
          · have hsplit : ys ++ z :: zs = (ys ++ [z]) ++ zs := by simp
            rw [hsplit] at R ⊢
            exact ih R h

theorem findRegion_from_head {fits : VirtmemDesc → Bool} {fuel : Nat} (R : Regions s xs)
    (h : findRegion s fits fuel (s.links.next s.regions) = .ok r) (hr : r ≠ s.regions) :
    ∃ ys zs, xs = ys ++ r :: zs ∧ fits (s.desc r) = true := by
  rw [R.ring.next_head] at h
  cases xs with
  | nil => cases fuel <;> cases h
  | cons x xs =>
      have R' : Regions s ([] ++ x :: xs) := R
      exact findRegion_spec R' h hr

/-! ## §4. Parts of a region. -/

/-- The first `n` pages of a region. -/
def VirtmemDesc.takePages (d : VirtmemDesc) (n : Nat) : VirtmemDesc := { d with nPages := n }

/-- The pages of a region behind its first `n`. -/
def VirtmemDesc.dropPages (d : VirtmemDesc) (n : Nat) : VirtmemDesc :=
  { d with startAddr := d.startAddr + n * pageSize, nPages := d.nPages - n }

theorem startPage_dropPages (d : VirtmemDesc) (n : Nat) :
    (d.dropPages n).startAddr / pageSize = d.startAddr / pageSize + n :=
  Nat.add_mul_div_right _ _ (by decide)

theorem Fine.takePages {d : VirtmemDesc} {n : Nat} (f : Fine d) (hpos : 0 < n)
    (hle : n ≤ d.nPages) : Fine (d.takePages n) :=
  ⟨f.aligned, f.width, hpos, le_trans (Nat.add_le_add_left hle _) f.le⟩

theorem Fine.dropPages {d : VirtmemDesc} {n : Nat} (f : Fine d) (hlt : n < d.nPages) :
    Fine (d.dropPages n) := by
  constructor
  case aligned => exact (Nat.add_mul_mod_self_right _ _ _).trans f.aligned
  case width => exact f.width
  case nonempty => exact Nat.sub_pos_of_lt hlt
  case le =>
    have hle := f.le
    rw [startPage_dropPages]
    show d.startAddr / pageSize + n + (d.nPages - n) ≤ allPages
    omega

/-- The bytes behind the first pages of a region do not wrap around. -/
theorem Fine.add_pages {d : VirtmemDesc} {n : Nat} (f : Fine d) (hlt : n < d.nPages) :
    d.startAddr + n * pageSize < wordSize := by
  obtain ⟨halign, -, -, hle⟩ := f
  simp only [allPages, pageSize, wordSize] at *
  omega

theorem Fine.nPages_lt {d : VirtmemDesc} (f : Fine d) : d.nPages < wordSize :=
  lt_of_le_of_lt (le_trans (Nat.le_add_left _ _) f.le) (by decide)

/-- An address on a page of a region, in bytes. -/
theorem Fine.start_eq {d : VirtmemDesc} {offset : Nat} (f : Fine d) (hplace : start % pageSize = 0)
    (hpage : start / pageSize = d.startAddr / pageSize + offset) :
    start = d.startAddr + offset * pageSize := by
  have halign := f.aligned
  simp only [pageSize] at *
  omega

/-- What `new` answers is not the address of a region. -/
theorem Fresh.ne {new : Option Nat} (hfresh : Fresh s new) (R : Regions s (ys ++ r :: zs)) :
    ∀ a, new = some a → a ≠ r := by
  rintro a ha rfl
  exact hfresh a ha _ R (by simp)

/-- The region `r` keeps its first `n` pages, and those behind the first `k` are the new
region `a` after it. -/
def ServerState.divide (s : ServerState) (r a n k : Nat) : ServerState where
  regions := s.regions
  links := (s.links.init a (some a)).insertAfter r a
  desc := Function.update (Function.update s.desc a ((s.desc r).dropPages k)) r
    ((s.desc r).takePages n)

/-- **What `takeFromStart` does**: the region loses its first pages, or is used up. -/
theorem takeFromStart_cases (f : Fine (s.desc r)) (hfits : pageUp size ≤ (s.desc r).nPages) :
    (pageUp size < (s.desc r).nPages ∧ takeFromStart s r r size (pageUp size)
        = s.setDesc r ((s.desc r).dropPages (pageUp size))) ∨
      (pageUp size = (s.desc r).nPages ∧ takeFromStart s r r size (pageUp size)
        = { s with links := s.links.remove r }) := by
  by_cases hmore : (s.desc r).nPages > pageUp size
  · left
    have hstart : add32 (s.desc r).startAddr (alignToFrameWidth size (s.desc r).pageWidth)
        = (s.desc r).startAddr + pageUp size * pageSize := by
      rw [f.width, alignToFrameWidth_pages, add32_eq (f.add_pages hmore)]
    rw [takeFromStart, if_pos hmore, hstart, sub32_eq hfits f.nPages_lt]
    exact ⟨hmore, rfl⟩
  · right
    rw [takeFromStart, if_neg hmore]
    exact ⟨by omega, rfl⟩

/-- **What `takeFromRest` does**: the region loses its last pages, or what is behind the grant
becomes a region of its own. -/
theorem takeFromRest_cases {offset : Nat} {new : Option Nat} (f : Fine (s.desc r))
    (hin : offset + pageUp size ≤ (s.desc r).nPages)
    (hstart : start = (s.desc r).startAddr + offset * pageSize) (hne : ∀ a, new = some a → a ≠ r)
    (h : takeFromRest s r r size (pageUp size) offset start new = .ok s') :
    (offset + pageUp size = (s.desc r).nPages ∧ s' = s.setDesc r ((s.desc r).takePages offset)) ∨
      (offset + pageUp size < (s.desc r).nPages ∧
        ∃ a, new = some a ∧ s' = s.divide r a offset (offset + pageUp size)) := by
  have hsum : add32 offset (pageUp size) = offset + pageUp size :=
    add32_eq (lt_of_le_of_lt hin f.nPages_lt)
  simp only [takeFromRest, hsum] at h
  split_ifs at h with hlast
  · left
    have hpages : sub32 (s.desc r).nPages (pageUp size) = offset := by
      rw [sub32_eq (by omega) f.nPages_lt]
      omega
    rw [hpages] at h
    cases h
    exact ⟨hlast, rfl⟩
  · right
    cases new with
    | none => cases h
    | some a =>
        have har : a ≠ r := hne a rfl
        have hmore : offset + pageUp size < (s.desc r).nPages := by omega
        have hbehind : add32 start (alignToFrameWidth size (s.desc r).pageWidth)
            = (s.desc r).startAddr + (offset + pageUp size) * pageSize := by
          rw [f.width, alignToFrameWidth_pages, hstart, ← add32_eq (f.add_pages hmore), add32,
            add32, Nat.add_mul, Nat.add_assoc]
        have hpages : sub32 (s.desc r).nPages (add32 (pageUp size) offset)
            = (s.desc r).nPages - (offset + pageUp size) := by
          rw [add32, Nat.add_comm, ← add32, hsum, sub32_eq hin f.nPages_lt]
        simp only [hbehind, hpages, ServerState.setDesc, Function.update_of_ne har.symm,
          Except.ok.injEq] at h
        exact ⟨hmore, a, rfl, h.symm⟩

/-! ## §5. Carving a region. -/

/-- **Carving**: the region `r` is replaced by the regions `rs`, and the grant and
they have the pages that it had. -/
theorem Inv.carve {rs : List Nat} {g : Grant} (I : Inv s (ys ++ r :: zs) granted)
    (R : Regions s' (ys ++ rs ++ zs))
    (hother : ∀ x ∈ ys ++ zs, s'.desc x = s.desc x)
    (hrs : ∀ x ∈ rs, Fine (s'.desc x))
    (hcover : ∀ p, cover (g.extent :: rs.map s'.extent) p = cover [s.extent r] p)
    (hg : g.Answers) : Inv s' (ys ++ rs ++ zs) (g :: granted) := by
  have hsplit : ∀ x ∈ ys ++ rs ++ zs, x ∈ rs ∨ x ∈ ys ++ zs := by
    intro x hx
    simp only [List.mem_append] at hx ⊢
    tauto
  have hold : ∀ x ∈ ys ++ zs, x ∈ ys ++ r :: zs := by
    intro x hx
    simp only [List.mem_append, List.mem_cons] at hx ⊢
    tauto
  have hmap : ∀ ws : List Nat, (∀ x ∈ ws, x ∈ ys ++ zs) → ws.map s'.extent = ws.map s.extent := by
    intro ws hws
    refine List.map_congr_left fun x hx => ?_
    rw [ServerState.extent, hother x (hws x hx)]
    rfl
  refine ⟨R, fun x hx => ?_, fun x hx => ?_, fun x hx => ?_, ?_, ?_⟩
  · rcases hsplit x hx with h | h
    · exact (hrs x h).aligned
    · rw [hother x h]
      exact I.aligned x (hold x h)
  · rcases hsplit x hx with h | h
    · exact (hrs x h).width
    · rw [hother x h]
      exact I.width x (hold x h)
  · rcases hsplit x hx with h | h
    · exact (hrs x h).nonempty
    · rw [hother x h]
      exact I.nonempty x (hold x h)
  · -- bring the region to the front, replace it, and put the parts in their places
    have hfront : Shares allPages
        (s.extent r :: (ys.map s.extent ++ zs.map s.extent ++ granted.map Grant.extent)) := by
      refine I.shares.perm ?_
      simp only [List.map_append, List.map_cons, List.append_assoc, List.cons_append]
      exact List.perm_middle
    refine (hfront.replace hcover).perm (List.perm_iff_count.mpr fun e => ?_)
    have hys := hmap ys fun x hx => List.mem_append_left _ hx
    have hzs := hmap zs fun x hx => List.mem_append_right _ hx
    simp only [List.map_append, List.map_cons, hys, hzs, List.count_append, List.count_cons]
    omega
  · intro g' hg'
    rcases List.mem_cons.mp hg' with rfl | hg'
    · exact hg
    · exact I.answers g' hg'

theorem Inv.start_lt (I : Inv s xs granted) {x : Nat} (hx : x ∈ xs) :
    (s.desc x).startAddr < wordSize := by
  have hend := I.end_le hx
  have hpos := I.nonempty x hx
  have halign := I.aligned x hx
  simp only [allPages, pageSize, wordSize] at *
  omega

theorem Inv.pageUp_start (I : Inv s xs granted) {x : Nat} (hx : x ∈ xs) :
    pageUp (s.desc x).startAddr = (s.desc x).startAddr / pageSize :=
  pageUp_aligned (I.start_lt hx) (I.aligned x hx)

@[simp]
theorem setDesc_links (d : VirtmemDesc) : (s.setDesc r d).links = s.links := rfl

@[simp]
theorem setDesc_regions (d : VirtmemDesc) : (s.setDesc r d).regions = s.regions := rfl

/-- The elements of the list but one. -/
theorem Regions.ne_of_split (R : Regions s (ys ++ r :: zs)) {x : Nat} (hx : x ∈ ys ++ zs) :
    x ≠ r := by
  rintro rfl
  have hnd := (List.nodup_cons.mp R.ring.nodup).2
  rw [List.nodup_middle] at hnd
  exact (List.nodup_cons.mp hnd).1 hx

/-- A region is taken out of the list. -/
theorem Regions.remove (R : Regions s (ys ++ r :: zs)) :
    Regions { s with links := s.links.remove r } (ys ++ [] ++ zs) := by
  refine ⟨by simpa using R.ring.remove, ?_⟩
  intro x hx
  rw [Links.remove_base]
  refine R.base x ?_
  simp only [List.append_nil, List.mem_append, List.mem_cons] at hx ⊢
  tauto

/-- A new region comes after one of the list. -/
theorem Regions.insert {a : Nat} (R : Regions s (ys ++ r :: zs)) (ha : a ∉ s.regions :: (ys ++ r :: zs))
    (desc : Nat → VirtmemDesc) :
    Regions ⟨s.regions, (s.links.init a (some a)).insertAfter r a, desc⟩ (ys ++ [r, a] ++ zs) := by
  have hl : ∀ x, x ≠ a → s.links.init a (some a) x = s.links x :=
    fun x hx => Function.update_of_ne hx ..
  have hne : ∀ x ∈ s.regions :: (ys ++ r :: zs), x ≠ a := fun x hx h' => ha (h' ▸ hx)
  constructor
  case ring =>
    have hring : Ring (s.links.init a (some a)) s.regions (ys ++ r :: zs) :=
      R.ring.congr fun x hx => by
        rw [hl x (hne x hx)]
        exact ⟨rfl, rfl⟩
    simpa using hring.insertAfter ha
  case base =>
    intro x hx
    rw [Links.insertAfter_base]
    by_cases hxa : x = a
    · rw [hxa, Links.init, Function.update_self]
    · rw [hl x hxa]
      refine R.base x ?_
      simp only [List.mem_append, List.mem_cons, List.not_mem_nil, or_false] at hx ⊢
      tauto

/-- The list in which `a` comes after `r`. -/
theorem Regions.divide {a n k : Nat} (R : Regions s (ys ++ r :: zs))
    (ha : a ∉ s.regions :: (ys ++ r :: zs)) : Regions (s.divide r a n k) (ys ++ [r, a] ++ zs) :=
  R.insert ha _

/-- Only the region `r` and the new one are other than before. -/
theorem divide_desc {a n k x : Nat} (R : Regions s (ys ++ r :: zs))
    (ha : a ∉ s.regions :: (ys ++ r :: zs)) (hx : x ∈ ys ++ zs) :
    (s.divide r a n k).desc x = s.desc x := by
  have hxa : x ≠ a := by
    rintro rfl
    refine ha (List.mem_cons_of_mem _ ?_)
    simp only [List.mem_append, List.mem_cons] at hx ⊢
    tauto
  exact (Function.update_of_ne (R.ne_of_split hx) ..).trans (Function.update_of_ne hxa ..)

@[simp]
theorem divide_desc_self (s : ServerState) (r a n k : Nat) :
    (s.divide r a n k).desc r = (s.desc r).takePages n := Function.update_self ..

theorem divide_desc_new (s : ServerState) {r a : Nat} (har : a ≠ r) (n k : Nat) :
    (s.divide r a n k).desc a = (s.desc r).dropPages k :=
  (Function.update_of_ne har ..).trans (Function.update_self ..)

/-- **A region shrinks**: it keeps its place in the list, with the pages that the grant left. -/
theorem Inv.shrink {g : Grant} {d : VirtmemDesc} (I : Inv s (ys ++ r :: zs) granted)
    (hd : Fine d) (hg : g.Answers)
    (hcover : ∀ p, cover [g.extent, ⟨d.startAddr / pageSize, d.nPages⟩] p
      = cover [s.extent r] p) :
    Inv (s.setDesc r d) (ys ++ [r] ++ zs) (g :: granted) := by
  have hdesc : (s.setDesc r d).desc r = d := Function.update_self ..
  refine I.carve ⟨?_, ?_⟩ (fun x hx => ?_) ?_ (fun p => ?_) hg
  · simpa using I.regions.ring
  · simpa using I.regions.base
  · exact Function.update_of_ne (I.regions.ne_of_split hx) ..
  · simp only [List.mem_singleton, forall_eq, hdesc]
    exact hd
  · rw [List.map_singleton, ServerState.extent, hdesc]
    exact hcover p

/-- **A region divides**: what is behind the grant is the new region `a`. -/
theorem Inv.divide {g : Grant} {a n k : Nat} (I : Inv s (ys ++ r :: zs) granted)
    (ha : a ∉ s.regions :: (ys ++ r :: zs)) (hn : Fine ((s.desc r).takePages n))
    (hk : Fine ((s.desc r).dropPages k)) (hg : g.Answers)
    (hcover : ∀ p, cover [g.extent, ⟨(s.desc r).startAddr / pageSize, n⟩,
      ⟨(s.desc r).startAddr / pageSize + k, (s.desc r).nPages - k⟩] p = cover [s.extent r] p) :
    Inv (s.divide r a n k) (ys ++ [r, a] ++ zs) (g :: granted) := by
  have har : a ≠ r := fun h => ha (by simp [h])
  refine I.carve (I.regions.divide ha) (fun x hx => divide_desc I.regions ha hx) ?_
    (fun p => ?_) hg
  · simp only [List.mem_cons, List.not_mem_nil, or_false, forall_eq_or_imp, forall_eq,
      divide_desc_self, divide_desc_new s har]
    exact ⟨hn, hk⟩
  · rw [List.map_cons, List.map_singleton, ServerState.extent, ServerState.extent,
      divide_desc_self, divide_desc_new s har, startPage_dropPages]
    exact hcover p

/-- From the start of a region, which may be all of it. -/
theorem takeFromStart_inv {range : Range} (I : Inv s (ys ++ r :: zs) granted)
    (v : Valid size start) (hfits : pageUp size ≤ (s.desc r).nPages)
    (hrange : range.virtAddr = (s.desc r).startAddr ∧ range.nPages = pageUp size)
    (hfixed : unaligned start = false → (s.desc r).startAddr = start) :
    ∃ xs, Inv (takeFromStart s r r size (pageUp size)) xs (⟨size, start, range⟩ :: granted) := by
  have f := I.fine (show r ∈ ys ++ r :: zs by simp)
  have hg : (⟨size, start, range⟩ : Grant).Answers :=
    ⟨by rw [hrange.1]; exact f.aligned, by rw [hrange.2]; exact pageUp_eq v.no_wrap,
      fun h => hrange.1.trans (hfixed h)⟩
  have hgext : (⟨size, start, range⟩ : Grant).extent
      = ⟨(s.desc r).startAddr / pageSize, pageUp size⟩ := by
    rw [Grant.extent, hrange.1, hrange.2]
  rcases takeFromStart_cases f hfits with ⟨hmore, heq⟩ | ⟨hall, heq⟩
  · -- the region keeps its end
    rw [heq]
    refine ⟨ys ++ [r] ++ zs, I.shrink (f.dropPages hmore) hg fun p => ?_⟩
    have hsum : pageUp size + ((s.desc r).nPages - pageUp size) = (s.desc r).nPages := by omega
    rw [hgext, startPage_dropPages, VirtmemDesc.dropPages, cover_cut, hsum]
    rfl
  · -- the region is used up and comes off the list
    rw [heq]
    refine ⟨ys ++ [] ++ zs, I.carve I.regions.remove (fun x hx => rfl) ?_ (fun p => ?_) hg⟩
    · simp
    · rw [hgext, List.map_nil, hall]
      rfl

/-- From the end of a region, or from its middle. -/
theorem takeFromRest_inv {range : Range} {new : Option Nat} (I : Inv s (ys ++ r :: zs) granted)
    (v : Valid size start) (hplace : start % pageSize = 0)
    (hlo : (s.desc r).startAddr / pageSize < start / pageSize)
    (hhi : start / pageSize + pageUp size
      ≤ (s.desc r).startAddr / pageSize + (s.desc r).nPages)
    (hrange : range.virtAddr = start ∧ range.nPages = pageUp size) (hfresh : Fresh s new)
    (h : takeFromRest s r r size (pageUp size)
      (start / pageSize - (s.desc r).startAddr / pageSize) start new = .ok s') :
    ∃ xs, Inv s' xs (⟨size, start, range⟩ :: granted) := by
  have f := I.fine (show r ∈ ys ++ r :: zs by simp)
  have hg : (⟨size, start, range⟩ : Grant).Answers :=
    ⟨by rw [hrange.1]; exact hplace, by rw [hrange.2]; exact pageUp_eq v.no_wrap,
      fun _ => hrange.1⟩
  obtain ⟨offset, hoffset⟩ : ∃ o, o = start / pageSize - (s.desc r).startAddr / pageSize :=
    ⟨_, rfl⟩
  have hpage : start / pageSize = (s.desc r).startAddr / pageSize + offset := by omega
  have hpos : 0 < offset := by omega
  rw [← hoffset] at h
  have hgext : (⟨size, start, range⟩ : Grant).extent
      = ⟨(s.desc r).startAddr / pageSize + offset, pageUp size⟩ := by
    rw [Grant.extent, hrange.1, hrange.2, hpage]
  have hext : s.extent r = ⟨(s.desc r).startAddr / pageSize, (s.desc r).nPages⟩ := rfl
  rcases takeFromRest_cases f (by omega) (f.start_eq hplace hpage)
    (hfresh.ne I.regions) h with ⟨hlast, rfl⟩ | ⟨hmore, a, hnew, rfl⟩
  · -- the region keeps its start
    refine ⟨ys ++ [r] ++ zs, I.shrink (f.takePages hpos (by omega)) hg fun p => ?_⟩
    rw [hgext, VirtmemDesc.takePages, hext, ← hlast]
    exact cover_cut_swap ..
  · -- what is behind the grant becomes a region of its own
    refine ⟨ys ++ [r, a] ++ zs, I.divide (hfresh a hnew _ I.regions)
      (f.takePages hpos (by omega)) (f.dropPages hmore) hg fun p => ?_⟩
    obtain ⟨rest, hrest⟩ : ∃ m, m = (s.desc r).nPages - (offset + pageUp size) := ⟨_, rfl⟩
    have hsum : (s.desc r).nPages = offset + (pageUp size + rest) := by omega
    rw [← hrest, hgext, hext, hsum, ← Nat.add_assoc]
    exact cover_cut_middle ..

/-! ## §6. Calls and runs. -/

theorem shl32_page {n : Nat} (h : n < allPages) : shl32 n pageWidth = n * pageSize := by
  simp only [allPages] at h
  have hpow : 2 ^ (pageWidth % 32) = pageSize := by decide
  rw [shl32, hpow]
  simp only [pageSize, wordSize]
  omega

theorem and_pageMask (start : Nat) : start &&& sub32 (shl32 1 pageWidth) 1 = start % pageSize := by
  have hmask : sub32 (shl32 1 pageWidth) 1 = 2 ^ 12 - 1 := by decide +kernel
  rw [hmask, Nat.and_two_pow_sub_one_eq_mod]
  rfl

/-- **What a call can do**: refuse, take pages from the start of a region, or take them from the
rest of the one that holds the address. -/
theorem vmAlloc_cases {fuel : Nat} {new : Option Nat} {answer : Option Range} (R : Regions s xs)
    (h : vmAlloc fuel s size start new = .ok (answer, s')) :
    (answer = none ∧ s' = s) ∨ ∃ ys r zs, xs = ys ++ r :: zs ∧
      ((unaligned start = true ∧ pageUp size ≤ (s.desc r).nPages ∧
          answer = some ⟨(s.desc r).startAddr, pageUp size, (s.desc r).pageWidth⟩ ∧
          s' = takeFromStart s r r size (pageUp size)) ∨
        (unaligned start = false ∧ holds (pageUp start) (pageUp size) (s.desc r) = true ∧
          start &&& sub32 (shl32 1 (s.desc r).pageWidth) 1 = 0 ∧
          answer = some ⟨shl32 (pageUp start) pageWidth, pageUp size, (s.desc r).pageWidth⟩ ∧
          ((sub32 (pageUp start) (pageUp (s.desc r).startAddr) = 0 ∧
              s' = takeFromStart s r r size (pageUp size)) ∨
            (sub32 (pageUp start) (pageUp (s.desc r).startAddr) ≠ 0 ∧
              takeFromRest s r r size (pageUp size)
                (sub32 (pageUp start) (pageUp (s.desc r).startAddr))
                (shl32 (pageUp start) pageWidth) new = .ok s')))) := by
  rw [vmAlloc] at h
  split_ifs at h with hany
  · -- no start is asked for: the first region that is large enough, or the head
    obtain ⟨region, hfind, h⟩ := bind_eq_ok.mp h
    by_cases hhead : region = s.regions
    · left
      cases hbase : (s.links region).base with
      | none =>
          rw [hbase] at h
          cases h
      | some r =>
          rw [hbase] at h
          simp only [if_pos hhead] at h
          cases h
          exact ⟨rfl, rfl⟩
    · right
      obtain ⟨ys, zs, rfl, hfits⟩ := findRegion_from_head R hfind hhead
      rw [R.base region (by simp)] at h
      simp only [if_neg hhead] at h
      cases h
      exact ⟨ys, region, zs, rfl, .inl ⟨hany, by simpa using hfits, rfl, rfl⟩⟩
  · -- a start is asked for: the region that holds it, or the head
    obtain ⟨region, hfind, h⟩ := bind_eq_ok.mp h
    split_ifs at h with hhead
    · cases h
      exact .inl ⟨rfl, rfl⟩
    · right
      obtain ⟨ys, zs, rfl, hholds⟩ := findRegion_from_head R hfind hhead
      refine ⟨ys, region, zs, rfl, .inr ⟨Bool.eq_false_iff.mpr hany, hholds, ?_⟩⟩
      rw [R.base region (by simp)] at h
      dsimp only at h
      split_ifs at h with hstop hzero
      · cases h
        exact ⟨not_not.mp hstop, rfl, .inl ⟨hzero, rfl⟩⟩
      · obtain ⟨s₁, hrest, h⟩ := map_eq_ok.mp h
        cases h
        exact ⟨not_not.mp hstop, rfl, .inr ⟨hzero, hrest⟩⟩

/-- **One call** keeps the address space shared out. -/
theorem vmAlloc_inv {fuel : Nat} {new : Option Nat} {answer : Option Range} (I : Inv s xs granted)
    (v : Valid size start) (hfresh : Fresh s new)
    (h : vmAlloc fuel s size start new = .ok (answer, s')) :
    ∃ xs', Inv s' xs' ((answer.map (Grant.mk size start)).toList ++ granted) := by
  rcases vmAlloc_cases I.regions h with ⟨rfl, rfl⟩ | ⟨ys, region, zs, rfl, hcase⟩
  · exact ⟨xs, I⟩
  rcases hcase with ⟨hany, hfits, rfl, rfl⟩ | ⟨hany, hholds, hstop, rfl, hcase⟩
  · -- any region that is large enough
    refine takeFromStart_inv I v hfits ⟨rfl, rfl⟩ fun h' => ?_
    rw [hany] at h'
    cases h'
  · have hplace : start % pageSize = 0 := v.place.resolve_left (Bool.eq_false_iff.mp hany)
    have hword := v.word
    have hr : region ∈ ys ++ region :: zs := by simp
    have hend := I.end_le hr
    have hstart := I.pageUp_start hr
    have hpage : start / pageSize < allPages := by
      simp only [pageSize, allPages, wordSize] at *
      omega
    have hsize : pageUp size ≤ allPages := by
      rw [pageUp_eq v.no_wrap]
      have := v.le
      simp only [allPages]
      omega
    have hsum : add32 (start / pageSize) (pageUp size) = start / pageSize + pageUp size := by
      refine add32_eq ?_
      simp only [allPages, wordSize] at *
      omega
    have hsum' : add32 ((s.desc region).startAddr / pageSize) (s.desc region).nPages
        = (s.desc region).startAddr / pageSize + (s.desc region).nPages :=
      add32_eq (lt_of_le_of_lt hend (by decide))
    rw [pageUp_aligned hword hplace] at hholds hcase ⊢
    simp only [holds, hstart, hsum, hsum', Bool.and_eq_true, decide_eq_true_eq] at hholds
    obtain ⟨hlo, hhi⟩ := hholds
    have hoffset : sub32 (start / pageSize) (pageUp (s.desc region).startAddr)
        = start / pageSize - (s.desc region).startAddr / pageSize := by
      rw [hstart, sub32_eq hlo (lt_trans hpage (by decide))]
    have hvirt : shl32 (start / pageSize) pageWidth = start := by
      rw [shl32_page hpage]
      simp only [pageSize] at *
      omega
    rw [hoffset, hvirt] at hcase
    rw [hvirt]
    rcases hcase with ⟨hzero, rfl⟩ | ⟨hzero, hrest⟩
    · -- at the start of the region
      have hsame : (s.desc region).startAddr = start := by
        have := I.aligned region hr
        simp only [pageSize] at *
        omega
      exact takeFromStart_inv I v (by omega) ⟨hsame.symm, rfl⟩ fun _ => hsame
    · -- inside the region
      exact takeFromRest_inv I v hplace (by omega) hhi ⟨rfl, rfl⟩ hfresh hrest

/-- The list that `create` makes. -/
theorem create_inv (links : Links Nat Nat) {head first : Nat} (hne : first ≠ head) :
    Inv (create links head first) [first] [] := by
  have hring : Ring ((links.init head (some head)).init first (some first)) head ([] ++ []) := by
    refine (ring_init links head (some head)).congr fun x hx => ?_
    have hx : x = head := by simpa using hx
    rw [Links.init, Function.update_of_ne (by rw [hx]; exact hne.symm)]
    exact ⟨rfl, rfl⟩
  have hfirst : first ∉ head :: (([] : List Nat) ++ []) := by simpa using hne
  refine ⟨⟨hring.insertBefore hfirst, ?_⟩, ?_, ?_, ?_, ?_, ?_⟩
  · simp [create, Links.init]
  · simp [create]
  · simp [create]
  · simp [create]
  · intro p
    have hiff : (⟨0, allPages⟩ : Extent).Has p ↔ p < allPages := by simp [Extent.Has]
    have hext : (create links head first).extent first = ⟨0, allPages⟩ := by
      simp [ServerState.extent, create, allPages]
    rw [List.map_singleton, hext, List.map_nil, List.append_nil, cover_cons]
    by_cases hp : p < allPages
    · rw [if_pos hp, if_pos (hiff.mpr hp)]
      rfl
    · rw [if_neg hp, if_neg fun h => hp (hiff.mp h)]
      rfl
  · simp

/-- **Every run** keeps the address space shared out. -/
theorem run_inv {links : Links Nat Nat} {head first : Nat} (hne : first ≠ head)
    (hrun : Run (create links head first) s granted) : ∃ xs, Inv s xs granted := by
  induction hrun with
  | start => exact ⟨[first], create_inv links hne⟩
  | call _ v hfresh h ih =>
      obtain ⟨xs, I⟩ := ih
      exact vmAlloc_inv I v hfresh h

/-- **Free regions and granted ranges partition the address space** in every state that
calls of `vm_alloc` come to: no page is in two of them, every page is in one, no free
region is empty, and each grant is the whole pages of its size at the address asked
for. -/
theorem vm_alloc_partition {links : Links Nat Nat} {head first : Nat} (hne : first ≠ head)
    (hrun : Run (create links head first) s granted) :
    ∃ xs, Regions s xs ∧
      (xs.map s.extent ++ granted.map Grant.extent).Pairwise Extent.Apart ∧
      (∀ p, p < allPages ↔ ∃ e ∈ xs.map s.extent ++ granted.map Grant.extent, e.Has p) ∧
      (∀ x ∈ xs, (s.desc x).startAddr % pageSize = 0 ∧ 0 < (s.desc x).nPages) ∧
      ∀ g ∈ granted, g.Answers := by
  obtain ⟨xs, I⟩ := run_inv hne hrun
  refine ⟨xs, I.regions, I.shares.pairwise, fun p => ⟨fun hp => I.shares.exists_mem hp, ?_⟩,
    fun x hx => ⟨I.aligned x hx, I.nonempty x hx⟩, I.answers⟩
  rintro ⟨e, he, hp⟩
  exact I.shares.lt_of_mem he hp

/-- A call for the last page. -/
theorem vm_alloc_partition_last_page :
    ∃ s range, Run (create (fun _ => ⟨0, 0, none⟩) 0 1) s [⟨4096, 0xfffff000, range⟩] ∧
      range = ⟨0xfffff000, 1, 12⟩ ∧ ∃ xs, Regions s xs ∧
        (xs.map s.extent ++ [Extent.mk 0xfffff 1]).Pairwise Extent.Apart := by
  have hcall : (vmAlloc 2 (create (fun _ => ⟨0, 0, none⟩) 0 1) 4096 0xfffff000 none).map Prod.fst
      = .ok (some ⟨0xfffff000, 1, 12⟩) := by decide +kernel
  obtain ⟨⟨answer, s⟩, hcall, rfl⟩ := map_eq_ok.mp hcall
  have hrun : Run (create (fun _ => ⟨0, 0, none⟩) 0 1) s [⟨4096, 0xfffff000, ⟨0xfffff000, 1, 12⟩⟩] :=
    .call .start ⟨by decide, by decide, by decide, .inr (by decide)⟩ (by rintro a ⟨⟩) hcall
  obtain ⟨xs, hxs, hapart, -⟩ := vm_alloc_partition (by decide) hrun
  exact ⟨s, _, hrun, rfl, xs, hxs, hapart⟩

end Metta.StretchAllocatorMod
