/-
  Metta.Bootinfo.FirstGap — when the search for high memory finds the first
  gap that is large enough, from kernel/arch/shared/bootinfo.cpp.

  The picture over the search has the entries in use cut holes into the free
  ones, and the answer is the start of the first piece that is large enough.
  The search keeps one piece of an entry, and the last entry wins:

    • `Gap` — a maximal piece without an entry in use,
    • `First` — the first one that is large enough,
    • `highmem_search_iff` — the answer is the first one exactly when that is
      the one that decides.
-/
import Metta.Bootinfo.Gaps

namespace Metta.Bootinfo

open Metta.Machine Page

/-! ## §1. Gaps. -/

/-- `[x, y)` is a maximal gap of `e`: the entries in use have nothing of it, and on both
sides there is one or the end of `e`. -/
structure Gap (es : List MmapEntry) (e : MmapEntry) (x y : Nat) : Prop where
  inside : e.baseAddr ≤ x ∧ x < y ∧ y ≤ e.baseAddr + e.length
  clear : ∀ f ∈ es, f.isFree = false → (⟨x, y - x⟩ : Extent).Apart f.extent
  left : x = e.baseAddr ∨ ∃ f ∈ es, f.isFree = false ∧ f.extent.Has (x - 1)
  right : y = e.baseAddr + e.length ∨ ∃ f ∈ es, f.isFree = false ∧ f.extent.Has y

/-- A gap of more than `bytes` bytes in a free entry above 1 MiB. -/
def LargeGap (es : List MmapEntry) (bytes : Nat) (e : MmapEntry) (x y : Nat) : Prop :=
  e.isFree = true ∧ 0x100000 ≤ e.baseAddr ∧ Gap es e x y ∧ bytes < y - x

/-- The first entry of the map that has such a gap has its first one at `x`. -/
def First (es : List MmapEntry) (bytes x : Nat) : Prop :=
  ∃ front e back, es = front ++ e :: back ∧
    (∀ e' ∈ front, ¬ ∃ x' y', LargeGap es bytes e' x' y') ∧
    (∃ y, LargeGap es bytes e x y) ∧ ∀ x' y', LargeGap es bytes e x' y' → x ≤ x'

/-- What the search should answer. -/
def Right (es : List MmapEntry) (bytes a : Nat) : Prop :=
  (a = 0xffffffff → ∀ e ∈ es, ∀ x y, ¬ LargeGap es bytes e x y) ∧
  (a ≠ 0xffffffff → First es bytes a)

/-- The gap that decides is the first one. -/
structure FirstDecides (es : List MmapEntry) (bytes : Nat) : Prop where
  first : ∀ x, First es bytes x → x ≠ 0xffffffff ∧ ∃ e t, Decides es bytes e x t
  none : (∀ e ∈ es, ∀ x y, ¬ LargeGap es bytes e x y) →
    ∀ e s t, Decides es bytes e s t → s = 0xffffffff

/-! ## §2. There is one first gap. -/

section Splits

variable {α : Type} {P : α → Prop}

/-- A list in which an element has `P` splits at the first one. -/
theorem exists_first_split {as : List α} (h : ∃ a ∈ as, P a) :
    ∃ front a back, as = front ++ a :: back ∧ (∀ b ∈ front, ¬ P b) ∧ P a := by
  induction as with
  | nil => simp at h
  | cons b as ih =>
      by_cases hb : P b
      · exact ⟨[], b, as, rfl, by simp, hb⟩
      · have htail : ∃ a ∈ as, P a := by simpa [hb] using h
        obtain ⟨front, a, back, rfl, hfront, ha⟩ := ih htail
        exact ⟨b :: front, a, back, rfl, List.forall_mem_cons.mpr ⟨hb, hfront⟩, ha⟩

/-- And there is one first element. -/
theorem first_split_unique {front front' back back' : List α} {a a' : α}
    (h : front ++ a :: back = front' ++ a' :: back') (hfront : ∀ b ∈ front, ¬ P b)
    (hfront' : ∀ b ∈ front', ¬ P b) (ha : P a) (ha' : P a') : a = a' := by
  induction front generalizing front' with
  | nil =>
      cases front' with
      | nil => exact (List.cons.inj h).1
      | cons b front' =>
          obtain ⟨rfl, -⟩ := List.cons.inj h
          exact absurd ha (hfront' _ List.mem_cons_self)
  | cons b front ih =>
      cases front' with
      | nil =>
          obtain ⟨rfl, -⟩ := List.cons.inj h
          exact absurd ha' (hfront _ List.mem_cons_self)
      | cons b' front' =>
          exact ih (List.cons.inj h).2 (List.forall_mem_cons.mp hfront).2
            (List.forall_mem_cons.mp hfront').2

end Splits

variable {es : List MmapEntry} {bytes x x' : Nat}

theorem exists_first (h : ∃ e ∈ es, ∃ x y, LargeGap es bytes e x y) :
    ∃ x, First es bytes x := by
  classical
  obtain ⟨front, e, back, hsplit, hfront, hgap⟩ := exists_first_split h
  exact ⟨Nat.find hgap, front, e, back, hsplit, hfront, Nat.find_spec hgap,
    fun x' y' hx' => Nat.find_min' hgap ⟨y', hx'⟩⟩

theorem First.unique (h : First es bytes x) (h' : First es bytes x') : x = x' := by
  obtain ⟨front, e, back, hsplit, hfront, ⟨y, hx⟩, hmin⟩ := h
  obtain ⟨front', e', back', hsplit', hfront', ⟨y', hx'⟩, hmin'⟩ := h'
  obtain rfl : e = e' := first_split_unique (hsplit.symm.trans hsplit') hfront hfront'
    ⟨x, y, hx⟩ ⟨x', y', hx'⟩
  exact le_antisymm (hmin x' y' hx') (hmin' x y hx)

theorem First.large (h : First es bytes x) : ∃ e ∈ es, ∃ x y, LargeGap es bytes e x y := by
  obtain ⟨front, e, back, hsplit, -, ⟨y, hx⟩, -⟩ := h
  refine ⟨e, ?_, x, y, hx⟩
  rw [hsplit]
  exact List.mem_append_right _ List.mem_cons_self

/-! ## §3. The answer. -/

/-- The answer is right when the gap that decides is the first one, and only then. -/
theorem right_iff {a : Nat} (hsome : ∀ e s t, Decides es bytes e s t → a = s)
    (hnone : (¬ ∃ e s t, Decides es bytes e s t) → a = 0xffffffff) :
    Right es bytes a ↔ FirstDecides es bytes := by
  have hdecided (ha : a ≠ 0xffffffff) : ∃ e t, Decides es bytes e a t := by
    by_contra hnot
    refine ha (hnone ?_)
    rintro ⟨e, s, t, hdecides⟩
    exact hnot ⟨e, t, (hsome e s t hdecides).symm ▸ hdecides⟩
  constructor
  · rintro ⟨hno, hfirst⟩
    refine ⟨fun x hx => ?_, fun hgaps e s t hdecides => ?_⟩
    · have ha : a ≠ 0xffffffff := by
        intro ha
        obtain ⟨e, he, x', y', hgap⟩ := hx.large
        exact hno ha e he x' y' hgap
      obtain rfl := hx.unique (hfirst ha)
      exact ⟨ha, hdecided ha⟩
    · by_contra hs
      rw [← hsome e s t hdecides] at hs
      obtain ⟨e', he', x', y', hgap⟩ := (hfirst hs).large
      exact hgaps e' he' x' y' hgap
  · rintro ⟨hfirst, hgaps⟩
    refine ⟨fun ha e he x y hgap => ?_, fun ha => ?_⟩
    · obtain ⟨x', hx'⟩ := exists_first ⟨e, he, x, y, hgap⟩
      obtain ⟨hne, e', t, hdecides⟩ := hfirst x' hx'
      exact hne ((hsome e' x' t hdecides).symm.trans ha)
    · have hlarge : ∃ e ∈ es, ∃ x y, LargeGap es bytes e x y := by
        by_contra hnot
        obtain ⟨e, t, hdecides⟩ := hdecided ha
        refine ha (hgaps ?_ e a t hdecides)
        intro e' he' x' y' hgap
        exact hnot ⟨e', he', x', y', hgap⟩
      obtain ⟨x, hx⟩ := exists_first hlarge
      obtain ⟨-, e, t, hdecides⟩ := hfirst x hx
      exact hsome e x t hdecides ▸ hx

/-- **The search finds the first gap that is large enough exactly when that is the gap that
decides**, and finds none exactly when there is none, on any map that was made at boot and
for any number of bytes. -/
theorem highmem_search_iff (m : Memory) (boot : List Record) (bytes : Nat) {fuel : Nat}
    (hfuel : pageSize ≤ fuel) :
    ∃ es a, (appendAll (create m) boot).1.mmapEntries fuel = some es ∧
      (appendAll (create m) boot).1.findHighmemRangeOfAtLeast bytes fuel = some a ∧
      (Right es bytes a ↔ FirstDecides es bytes) := by
  have h : Holds _ _ := appendAll_holds (create_holds m) boot
  obtain ⟨a, hfind, hsome, hnone⟩ := findHighmemRangeOfAtLeast_eq h hfuel bytes
  exact ⟨_, a, h.mmapEntries hfuel, hfind, right_iff hsome hnone⟩

/-- Free memory and an entry in use that reaches behind its end. -/
def cutMap : List Record := [.mmap 0x200000 0x400000 1, .mmap 0x500000 0x200000 2]

theorem highmem_search_cut :
    pageSize ≤ 4096 ∧ First [⟨0x200000, 0x400000, 1⟩, ⟨0x500000, 0x200000, 2⟩] 0x2000 0x200000 ∧
      FirstDecides [⟨0x200000, 0x400000, 1⟩, ⟨0x500000, 0x200000, 2⟩] 0x2000 := by
  obtain ⟨es, a, hes, hfind, hiff⟩ :=
    highmem_search_iff ⟨fun _ => 0, []⟩ cutMap 0x2000 (le_refl 4096)
  have hmap : (appendAll (create ⟨fun _ => 0, []⟩) cutMap).1.mmapEntries 4096
      = some [⟨0x200000, 0x400000, 1⟩, ⟨0x500000, 0x200000, 2⟩] := by decide +kernel
  have hfound : (appendAll (create ⟨fun _ => 0, []⟩) cutMap).1.findHighmemRangeOfAtLeast 0x2000
      4096 = some 0x200000 := by decide +kernel
  obtain rfl := Option.some_inj.mp (hes.symm.trans hmap)
  obtain rfl := Option.some_inj.mp (hfind.symm.trans hfound)
  have hgap : Gap [⟨0x200000, 0x400000, 1⟩, ⟨0x500000, 0x200000, 2⟩] ⟨0x200000, 0x400000, 1⟩
      0x200000 0x500000 := by
    refine ⟨by decide, ?_, .inl rfl, .inr ⟨⟨0x500000, 0x200000, 2⟩, by simp, rfl, by decide⟩⟩
    intro f hf hused
    rcases List.mem_pair.mp hf with rfl | rfl
    · cases hused
    · rintro p ⟨⟨-, hp⟩, hp', -⟩
      simp only [MmapEntry.extent] at hp hp'
      omega
  have hfirst : First [⟨0x200000, 0x400000, 1⟩, ⟨0x500000, 0x200000, 2⟩] 0x2000 0x200000 :=
    ⟨[], ⟨0x200000, 0x400000, 1⟩, [⟨0x500000, 0x200000, 2⟩], rfl, by simp,
      ⟨0x500000, rfl, by decide, hgap, by decide⟩, fun x' y' hlarge => hlarge.2.2.1.inside.1⟩
  exact ⟨le_rfl, hfirst, hiff.mp ⟨fun ha => absurd ha (by decide), fun _ => hfirst⟩⟩

/-- Two pieces of free memory. -/
def twoFreeMap : List Record := [.mmap 0x200000 0x400000 1, .mmap 0x800000 0x400000 1]

/-- The second piece is found. -/
theorem highmem_search_last :
    ∃ es, (appendAll (create ⟨fun _ => 0, []⟩) twoFreeMap).1.mmapEntries 4096 = some es ∧
      (appendAll (create ⟨fun _ => 0, []⟩) twoFreeMap).1.findHighmemRangeOfAtLeast 0x2000 4096
        = some 0x800000 ∧
      First es 0x2000 0x200000 ∧ ¬ Right es 0x2000 0x800000 := by
  have hmap : (appendAll (create ⟨fun _ => 0, []⟩) twoFreeMap).1.mmapEntries 4096
      = some [⟨0x200000, 0x400000, 1⟩, ⟨0x800000, 0x400000, 1⟩] := by decide +kernel
  have hgap : Gap [⟨0x200000, 0x400000, 1⟩, ⟨0x800000, 0x400000, 1⟩] ⟨0x200000, 0x400000, 1⟩
      0x200000 0x600000 := by
    refine ⟨by decide, ?_, .inl rfl, .inl rfl⟩
    intro f hf hused
    rcases List.mem_pair.mp hf with rfl | rfl <;> cases hused
  have hfirst : First [⟨0x200000, 0x400000, 1⟩, ⟨0x800000, 0x400000, 1⟩] 0x2000 0x200000 :=
    ⟨[], ⟨0x200000, 0x400000, 1⟩, [⟨0x800000, 0x400000, 1⟩], rfl, by simp,
      ⟨0x600000, rfl, by decide, hgap, by decide⟩, fun x' y' hlarge => hlarge.2.2.1.inside.1⟩
  refine ⟨_, hmap, by decide +kernel, hfirst, fun ⟨_, hright⟩ => ?_⟩
  exact absurd (hfirst.unique (hright (by decide))) (by decide)

end Metta.Bootinfo
