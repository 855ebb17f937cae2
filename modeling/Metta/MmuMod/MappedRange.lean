/-
  Metta.MmuMod.MappedRange — `add_mapped_range` is not all or nothing.

  The loop enters page after page and marks frame after frame; when a page needs
  a level 2 table and none is left it returns, with the pages before entered.

    • `Rep.addMappedLoop` — how far the loop gets and what it leaves,
    • `RangeAdded.lt_iff` — the pages it gets to, from the state before,
    • `add_mapped_range_all_or_nothing_iff` — when the call is all or nothing.
-/
import Metta.MmuMod.UpdateRange
import Metta.MmuMod.Budget

namespace Metta.MmuMod

open Metta.Machine
open Metta.FramesMod (Ramtab RamtabEntry RamState ownerNone)

variable {s s' : State} {t t' : Table} {rt : Ramtab} {pte : Page} {sid : Sid} {virt phys : Address}
  {d n : Nat}

/-! ## §1. The page tables. -/

/-- The level 1 entries of the first `n` pages of a range. -/
def rangeChunks (virt : Address) (n : Nat) : Finset (Fin nL1Tables) :=
  (Finset.range n).image fun i => pdeEntry (pageAt virt i)

theorem rangeChunks_zero (virt : Address) : rangeChunks virt 0 = ∅ := rfl

theorem rangeChunks_succ (virt : Address) (n : Nat) :
    rangeChunks virt (n + 1) = insert (pdeEntry (pageAt virt n)) (rangeChunks virt n) := by
  rw [rangeChunks, Finset.range_add_one, Finset.image_insert, rangeChunks]

/-- The first page, then those of the rest. -/
theorem rangeChunks_cons (virt : Address) (n : Nat) :
    rangeChunks virt (n + 1) = insert (pdeEntry virt) (rangeChunks (pageAt virt 1) n) := by
  induction n with
  | zero => rw [rangeChunks_succ, pageAt_zero, rangeChunks_zero, rangeChunks_zero]
  | succ n ih =>
      rw [rangeChunks_succ, ih, Finset.insert_comm, rangeChunks_succ (pageAt virt 1), pageAt_pageAt,
        Nat.add_comm 1]

theorem rangeChunks_mono {virt : Address} {n n' : Nat} (h : n ≤ n') :
    rangeChunks virt n ⊆ rangeChunks virt n' :=
  Finset.image_subset_image (Finset.range_mono h)

/-- Where a range wraps around onto itself, the frames do too. -/
theorem pageAt_eq_of_pageNumber {i i' : Nat}
    (h : pageNumber (pageAt virt i) = pageNumber (pageAt virt i')) : pageAt phys i = pageAt phys i' := by
  have hv := virt.isLt
  apply BitVec.eq_of_toNat_eq
  rw [pageNumber, pageNumber, pageAt_toNat, pageAt_toNat] at h
  rw [pageAt_toNat, pageAt_toNat]
  omega

/-- The entry of the page whose frame is at `phys`. -/
def rangeEntry (pte : Page) (sid : Sid) (phys : Address) : Entry :=
  ⟨pte.setFrame phys, ⟨sid, (pte.setFrame phys).flags.setWidth 16⟩⟩

/-- The first `d` pages of the range were entered, and nothing else. -/
structure RangeAdded (pte : Page) (sid : Sid) (virt phys : Address) (d : Nat) (s : State) (t : Table)
    (s' : State) (t' : Table) : Prop where
  rep : Rep s' t'
  added : ∀ i < d, ∀ va, pageNumber va = pageNumber (pageAt virt i) →
    t'.lookup (pdeEntry va) (pteEntry va) = some (rangeEntry pte sid (pageAt phys i))
  kept : ∀ va, (∀ i < d, pageNumber va ≠ pageNumber (pageAt virt i)) →
    t'.lookup (pdeEntry va) (pteEntry va) = t.lookup (pdeEntry va) (pteEntry va)
  taken : tables s' = tables s ∪ rangeChunks virt d
  max : s'.l2Max = s.l2Max
  next : s'.l2Next + (tables s).card = s.l2Next + (tables s').card

theorem RangeAdded.zero (R : Rep s t) : RangeAdded pte sid virt phys 0 s t s t where
  rep := R
  added i hi := absurd hi (Nat.not_lt_zero i)
  kept _ _ := rfl
  taken := by rw [rangeChunks_zero, Finset.union_empty]
  max := rfl
  next := rfl

/-- One page, then the rest of the range. -/
theorem RangeAdded.cons {s₁ : State} {t₁ : Table} (h₁ : RangeAdded pte sid virt phys 1 s t s₁ t₁)
    (h : RangeAdded pte sid (pageAt virt 1) (pageAt phys 1) d s₁ t₁ s' t') :
    RangeAdded pte sid virt phys (d + 1) s t s' t' := by
  constructor
  case rep => exact h.rep
  case added =>
    intro i hi va hva
    -- the last page of the range that is this one
    by_cases hlater : ∃ i' < d, pageNumber va = pageNumber (pageAt (pageAt virt 1) i')
    · obtain ⟨i', hi', hva'⟩ := hlater
      rw [h.added i' hi' va hva']
      rw [pageAt_pageAt] at hva'
      rw [pageAt_pageAt, pageAt_eq_of_pageNumber (hva'.symm.trans hva)]
    · have hzero : i = 0 := by
        by_contra hne
        refine hlater ⟨i - 1, by omega, ?_⟩
        rw [pageAt_pageAt, show 1 + (i - 1) = i by omega]
        exact hva
      subst hzero
      rw [h.kept va fun i' hi' heq => hlater ⟨i', hi', heq⟩, h₁.added 0 Nat.one_pos va hva]
  case kept =>
    intro va hva
    have hfirst : ∀ i < 1, pageNumber va ≠ pageNumber (pageAt virt i) :=
      fun i hi => hva i (by omega)
    have hrest : ∀ i < d, pageNumber va ≠ pageNumber (pageAt (pageAt virt 1) i) := by
      intro i hi
      rw [pageAt_pageAt]
      exact hva (1 + i) (by omega)
    rw [h.kept va hrest, h₁.kept va hfirst]
  case taken =>
    rw [h.taken, h₁.taken, rangeChunks_cons virt d, rangeChunks_cons virt 0, rangeChunks_zero,
      Finset.union_insert, Finset.union_empty, Finset.insert_union, Finset.union_insert]
  case max => exact h.max.trans h₁.max
  case next =>
    have hnext := h.next
    have hnext₁ := h₁.next
    omega

/-- **One page of the loop.** -/
theorem Rep.addPage (R : Rep s t) (pte : Page) (sid : Sid) (virt phys : Address) :
    (addPage s width4kib virt (pte.setFrame phys) sid = (false, s) ∧ pdeEntry virt ∉ tables s ∧
        s.l2Next = s.l2Max) ∨
      ∃ s' t', addPage s width4kib virt (pte.setFrame phys) sid = (true, s') ∧
        RangeAdded pte sid virt phys 1 s t s' t' := by
  rw [MmuMod.addPage, if_pos rfl]
  rcases R.add4kPage_tables virt (pte.setFrame phys) sid with
    hfail | ⟨s', t', hadd, R', hlook, htables, hmax, hnext⟩
  · exact .inl hfail
  · refine .inr ⟨s', t', hadd, R', fun i hi va hva => ?_, fun va hva => ?_, ?_, hmax, hnext⟩
    · have hi : i = 0 := by omega
      subst hi
      rw [pageAt_zero] at hva
      rw [hlook, if_pos (pageNumber_inj.mp hva), pageAt_zero]
      rfl
    · have hne := hva 0 Nat.one_pos
      rw [pageAt_zero] at hne
      rw [hlook, if_neg fun h => hne (pageNumber_inj.mpr h)]
    · rw [htables, rangeChunks_cons, rangeChunks_zero, Finset.union_insert, Finset.union_empty]

/-! ## §2. The ramtab. -/

/-- The frame number of page `i` of the frames from `phys` on. -/
def frameOf (phys : Address) (i : Nat) : Nat := (pageAt phys i).toNat / 4096

/-- What the loop does to the ramtab for one page. -/
def markFrame (rt : Ramtab) (frame : Nat) : Ramtab :=
  match rt.get frame with
  | some e => rt.put frame e.owner e.frameWidth .mapped
  | none => rt

/-- The ramtab after `d` pages of the loop. -/
def markFrames : (d : Nat) → (phys : Address) → Ramtab → Ramtab
  | 0, _, rt => rt
  | d + 1, phys, rt => markFrames d (pageAt phys 1) (markFrame rt (frameOf phys 0))

/-- The frames of the range are in the ramtab, have an owner and are not nailed; the field
for the width has 16 bits. -/
def FramesOwned (rt : Ramtab) (phys : Address) (n : Nat) : Prop :=
  ∀ i < n, ∃ e, rt.get (frameOf phys i) = some e ∧ e.owner ≠ ownerNone ∧ e.state ≠ .nailed ∧
    e.frameWidth < 2 ^ 16

theorem markFrame_size (rt : Ramtab) (frame : Nat) : (markFrame rt frame).size = rt.size := by
  unfold markFrame Ramtab.put
  split
  · split <;> rfl
  · rfl

/-- Owner and width stay. -/
theorem markFrame_entry {frame : Nat} {e : RamtabEntry} (he : rt.get frame = some e)
    (hw : e.frameWidth < 2 ^ 16) (f : Nat) :
    (markFrame rt frame).entry f
      = if f = frame then { rt.entry f with state := .mapped } else rt.entry f := by
  have hlt : frame < rt.size := by
    by_contra hge
    rw [Ramtab.get, if_neg hge] at he
    cases he
  have hentry : rt.entry frame = e := by
    rw [Ramtab.get, if_pos hlt] at he
    exact Option.some_inj.mp he
  simp only [markFrame, he, Ramtab.put, if_pos hlt]
  by_cases hf : f = frame
  · subst hf
    rw [Function.update_self, if_pos rfl, hentry, Nat.mod_eq_of_lt hw]
  · rw [Function.update_of_ne hf, if_neg hf]

theorem frameOf_succ (phys : Address) (i : Nat) : frameOf (pageAt phys 1) i = frameOf phys (i + 1) := by
  rw [frameOf, pageAt_pageAt, Nat.add_comm, frameOf]

theorem FramesOwned.mark (h : FramesOwned rt phys (n + 1)) :
    FramesOwned (markFrame rt (frameOf phys 0)) (pageAt phys 1) n := by
  intro i hi
  obtain ⟨e₀, he₀, -, -, hw₀⟩ := h 0 (Nat.succ_pos n)
  obtain ⟨e, he, howner, hstate, hw⟩ := h (i + 1) (Nat.succ_lt_succ hi)
  rw [frameOf_succ]
  have hget : (markFrame rt (frameOf phys 0)).get (frameOf phys (i + 1))
      = some (if frameOf phys (i + 1) = frameOf phys 0 then { e with state := .mapped } else e) := by
    rw [Ramtab.get] at he ⊢
    rw [markFrame_size]
    split at he
    next hlt =>
      cases he
      rw [if_pos hlt, markFrame_entry he₀ hw₀]
    next => cases he
  refine ⟨_, hget, ?_⟩
  split
  · exact ⟨howner, by simp, hw⟩
  · exact ⟨howner, hstate, hw⟩

/-- **The ramtab after `d` pages**: their frames are mapped, owner and width as before. -/
theorem markFrames_entry (d : Nat) : ∀ {rt : Ramtab} {phys : Address}, FramesOwned rt phys d →
    (markFrames d phys rt).size = rt.size ∧
      (∀ i < d, (markFrames d phys rt).entry (frameOf phys i)
        = { rt.entry (frameOf phys i) with state := .mapped }) ∧
      ∀ f, (∀ i < d, f ≠ frameOf phys i) → (markFrames d phys rt).entry f = rt.entry f := by
  induction d with
  | zero => exact fun _ => ⟨rfl, fun i hi => absurd hi (Nat.not_lt_zero i), fun _ _ => rfl⟩
  | succ d ih =>
      intro rt phys h
      obtain ⟨e₀, he₀, -, -, hw₀⟩ := h 0 (Nat.succ_pos d)
      obtain ⟨hsize, hmarked, hkept⟩ := ih h.mark
      refine ⟨hsize.trans (markFrame_size _ _), fun i hi => ?_, fun f hf => ?_⟩
      · rw [markFrames]
        by_cases hlater : ∃ i' < d, frameOf phys i = frameOf (pageAt phys 1) i'
        · obtain ⟨i', hi', heq⟩ := hlater
          rw [heq, hmarked i' hi', markFrame_entry he₀ hw₀]
          split <;> rfl
        · have hzero : i = 0 := by
            by_contra hne
            refine hlater ⟨i - 1, by omega, ?_⟩
            rw [frameOf_succ, Nat.sub_add_cancel (by omega)]
          rw [hkept _ fun i' hi' heq => hlater ⟨i', hi', heq⟩, markFrame_entry he₀ hw₀, hzero,
            if_pos rfl]
      · have hrest : ∀ i < d, f ≠ frameOf (pageAt phys 1) i := by
          intro i hi
          rw [frameOf_succ]
          exact hf (i + 1) (Nat.succ_lt_succ hi)
        rw [markFrames, hkept f hrest, markFrame_entry he₀ hw₀, if_neg (hf 0 (Nat.succ_pos d))]

/-! ## §3. The loop. -/

/-- **The loop** enters the first `d` pages; short of the end it stops at a page that
needs a table when none is left. -/
theorem Rep.addMappedLoop (pte : Page) (sid : Sid) (n : Nat) :
    ∀ {s : State} {t : Table} (rt : Ramtab) (virt phys : Address), Rep s t →
      ∃ (d : Nat) (s' : State) (t' : Table),
        addMappedLoop width4kib pte sid n virt phys s rt = (s', markFrames d phys rt) ∧ d ≤ n ∧
        RangeAdded pte sid virt phys d s t s' t' ∧
        (d < n → pdeEntry (pageAt virt d) ∉ tables s' ∧ s'.l2Next = s'.l2Max) := by
  induction n with
  | zero =>
      intro s t rt virt phys R
      exact ⟨0, s, t, rfl, le_rfl, .zero R, fun h => absurd h (lt_irrefl 0)⟩
  | succ n ih =>
      intro s t rt virt phys R
      have hstep : ∀ a : Address, a + BitVec.ofNat 32 (2 ^ width4kib) = pageAt a 1 := fun _ => rfl
      rcases R.addPage pte sid virt phys with ⟨hfail, hnew, hfull⟩ | ⟨s₁, t₁, hadd, h₁⟩
      · refine ⟨0, s, t, ?_, Nat.zero_le _, .zero R, fun _ => ?_⟩
        · simp only [MmuMod.addMappedLoop, hfail]
          rfl
        · rw [pageAt_zero]
          exact ⟨hnew, hfull⟩
      · obtain ⟨d, s', t', hrun, hle, h, hstop⟩ :=
          ih (markFrame rt (frameOf phys 0)) (pageAt virt 1) (pageAt phys 1) h₁.rep
        refine ⟨d + 1, s', t', ?_, Nat.succ_le_succ hle, h₁.cons h, fun hlt => ?_⟩
        · simp only [MmuMod.addMappedLoop, hadd, hstep]
          have hframe : frameOf phys 0 = phys.toNat / 4096 := by
            rw [frameOf, pageAt_zero]
          rw [markFrames, ← hrun, hframe]
          rfl
        · have hend := hstop (Nat.lt_of_succ_lt_succ hlt)
          rw [pageAt_pageAt, Nat.add_comm] at hend
          exact hend

/-! ## §4. How far the loop gets. -/

/-- The pool has a table for each level 1 entry that the first `k` pages lack. -/
def Fits (s : State) (virt : Address) (k : Nat) : Prop :=
  (rangeChunks virt k \ tables s).card ≤ s.l2Max - s.l2Next

instance (s : State) (virt : Address) (k : Nat) : Decidable (Fits s virt k) :=
  inferInstanceAs (Decidable (_ ≤ _))

/-- **The pages that the loop gets to** are those up to which the pool lasts. -/
theorem RangeAdded.fits_iff (h : RangeAdded pte sid virt phys d s t s' t')
    (hstop : d < n → pdeEntry (pageAt virt d) ∉ tables s' ∧ s'.l2Next = s'.l2Max) {k : Nat}
    (hk : k ≤ n) : Fits s virt k ↔ k ≤ d := by
  have hmono : ∀ {k k' : Nat}, k ≤ k' →
      (rangeChunks virt k \ tables s).card ≤ (rangeChunks virt k' \ tables s).card :=
    fun hle => Finset.card_le_card (Finset.sdiff_subset_sdiff (rangeChunks_mono hle) le_rfl)
  -- what the loop took is what the pages lacked
  have hcard : (tables s').card
      = (tables s).card + (rangeChunks virt d \ tables s).card := by
    rw [h.taken, ← Finset.union_sdiff_self_eq_union,
      Finset.card_union_of_disjoint Finset.disjoint_sdiff]
  have hnext := h.next
  have hmax := h.max
  have hroom := h.rep.next
  rw [Fits]
  constructor
  · intro hfits
    by_contra hlt
    obtain ⟨hnew, hfull⟩ := hstop (by omega)
    rw [h.taken, Finset.notMem_union] at hnew
    have hone : (rangeChunks virt (d + 1) \ tables s).card
        = (rangeChunks virt d \ tables s).card + 1 := by
      rw [rangeChunks_succ, Finset.insert_sdiff_of_notMem _ hnew.1,
        Finset.card_insert_of_notMem fun hmem => hnew.2 (Finset.mem_sdiff.mp hmem).1]
    have hle := hmono (show d + 1 ≤ k by omega)
    omega
  · intro hle
    have hle' := hmono hle
    omega

/-! ## §5. All or nothing. -/

/-- The page of an address is mapped, with this translation. -/
def Maps (s : State) (va : Address) (tr : Translation) : Prop :=
  isMapped s va = true ∧ translate s va = some tr

/-- The page of an address is as it was. -/
def SamePage (s s' : State) (va : Address) : Prop :=
  isMapped s' va = isMapped s va ∧ translate s' va = translate s va

/-- Page `i` of the range is mapped to frame `i`. -/
def PageMapped (virt phys : Address) (flags : Flags) (sid : Sid) (i : Nat) (s : State) : Prop :=
  ∀ va, pageNumber va = pageNumber (pageAt virt i) → Maps s va ⟨pageAt phys i &&& pageMask, flags, sid⟩

/-- All pages are mapped, all frames marked, and nothing else has changed. -/
structure AllMapped (virt phys : Address) (n : Nat) (flags : Flags) (sid : Sid) (s : State)
    (rt : Ramtab) (s' : State) (rt' : Ramtab) : Prop where
  mapped : ∀ i < n, PageMapped virt phys flags sid i s'
  others : ∀ va, (∀ i < n, pageNumber va ≠ pageNumber (pageAt virt i)) → SamePage s s' va
  size : rt'.size = rt.size
  marked : ∀ i < n, rt'.entry (frameOf phys i)
    = ⟨(rt.entry (frameOf phys i)).owner, (rt.entry (frameOf phys i)).frameWidth, .mapped⟩
  frames : ∀ f, (∀ i < n, f ≠ frameOf phys i) → rt'.entry f = rt.entry f

/-- Translations and ramtab are as they were. -/
def Unchanged (s : State) (rt : Ramtab) (s' : State) (rt' : Ramtab) : Prop :=
  (∀ va, SamePage s s' va) ∧ rt' = rt

/-- Page `i` of the range was mapped so already, its frame marked. -/
def AlreadyMapped (virt phys : Address) (flags : Flags) (sid : Sid) (i : Nat) (s : State)
    (rt : Ramtab) : Prop :=
  PageMapped virt phys flags sid i s ∧ (rt.entry (frameOf phys i)).state = .mapped

theorem RangeAdded.pageMapped (h : RangeAdded pte sid virt phys d s t s' t')
    (hpte : pte.isPresent = true) {i : Nat} (hi : i < d) : PageMapped virt phys pte.flags sid i s' := by
  intro va hva
  have hlook := h.added i hi va hva
  constructor
  · rw [h.rep.isMapped_eq, hlook, Option.map_some, rangeEntry, Page.isPresent_setFrame, hpte]
    rfl
  · rw [h.rep.translate_eq, hlook, Option.map_some, rangeEntry, Entry.view, Page.frame_setFrame,
      Page.flags_setWidth_setWidth, Page.flags_setFrame]

theorem RangeAdded.samePage (R : Rep s t) (h : RangeAdded pte sid virt phys d s t s' t') {va : Address}
    (hva : ∀ i < d, pageNumber va ≠ pageNumber (pageAt virt i)) : SamePage s s' va := by
  have hlook := h.kept va hva
  exact ⟨by rw [h.rep.isMapped_eq, R.isMapped_eq, hlook],
    by rw [h.rep.translate_eq, R.translate_eq, hlook]⟩

/-- A page whose level 1 entry has no table is not mapped. -/
theorem not_pageMapped {flags : Flags} {i : Nat} (h : pdeEntry (pageAt virt i) ∉ tables s) :
    ¬ PageMapped virt phys flags sid i s := by
  intro hmapped
  have hpresent := (hmapped _ rfl).1
  rw [isMapped, Bool.and_eq_true] at hpresent
  exact h (mem_tables.mpr hpresent.1)

/-- **When the loop is all or nothing.** -/
theorem RangeAdded.allOrNothing_iff (R : Rep s t) (h : RangeAdded pte sid virt phys d s t s' t')
    (hle : d ≤ n)
    (hstop : d < n → pdeEntry (pageAt virt d) ∉ tables s' ∧ s'.l2Next = s'.l2Max)
    (hpte : pte.isPresent = true) (howned : FramesOwned rt phys n) :
    (AllMapped virt phys n pte.flags sid s rt s' (markFrames d phys rt) ∨
        Unchanged s rt s' (markFrames d phys rt)) ↔
      Fits s virt n ∨
        ∀ i < n, Fits s virt (i + 1) → AlreadyMapped virt phys pte.flags sid i s rt := by
  obtain ⟨hsize, hmarked, hframes⟩ := markFrames_entry d fun i hi => howned i (by omega)
  have hfits : ∀ i < n, Fits s virt (i + 1) ↔ i < d := fun i hi => h.fits_iff hstop hi
  constructor
  · -- with the pool used up before the end, the page at `d` is not mapped
    rintro (hall | ⟨hsame, hrt⟩)
    · left
      rw [h.fits_iff hstop le_rfl]
      by_contra hlt
      exact not_pageMapped (hstop (by omega)).1 (hall.mapped d (by omega))
    · -- nothing changed, so each page that was entered was mapped so before
      right
      intro i hi hfit
      have hid := (hfits i hi).mp hfit
      constructor
      · intro va hva
        obtain ⟨hm, htr⟩ := h.pageMapped hpte hid va hva
        obtain ⟨hm', htr'⟩ := hsame va
        exact ⟨hm' ▸ hm, htr' ▸ htr⟩
      · have hentry := hmarked i hid
        rw [hrt] at hentry
        rw [hentry]
  · rintro (hfit | hall)
    · -- the whole range was entered
      have hd : d = n := le_antisymm hle ((h.fits_iff hstop le_rfl).mp hfit)
      subst hd
      exact .inl ⟨fun i hi => h.pageMapped hpte hi, fun va hva => h.samePage R hva, hsize, hmarked,
        hframes⟩
    · -- the pages that were entered were there before
      right
      have halready : ∀ i < d, AlreadyMapped virt phys pte.flags sid i s rt :=
        fun i hi => hall i (by omega) ((hfits i (by omega)).mpr hi)
      constructor
      · intro va
        by_cases hva : ∃ i < d, pageNumber va = pageNumber (pageAt virt i)
        · obtain ⟨i, hi, hva⟩ := hva
          obtain ⟨hm, htr⟩ := h.pageMapped hpte hi va hva
          obtain ⟨hm', htr'⟩ := (halready i hi).1 va hva
          exact ⟨hm.trans hm'.symm, htr.trans htr'.symm⟩
        · exact h.samePage R fun i hi heq => hva ⟨i, hi, heq⟩
      · have hentries : (markFrames d phys rt).entry = rt.entry := by
          funext f
          by_cases hf : ∃ i < d, f = frameOf phys i
          · obtain ⟨i, hi, rfl⟩ := hf
            rw [hmarked i hi, ← (halready i hi).2]
          · exact hframes f fun i hi heq => hf ⟨i, hi, heq⟩
        exact congrArg₂ Ramtab.mk hsize hentries

/-! ## §6. `add_mapped_range`. -/

theorem controlBits_swapped (useGlobalPages : Bool) (rights attr : BitVec 32) :
    controlBits useGlobalPages rights attr true &&& Page.swapped = 0#32 := by
  simp only [controlBits, if_true]
  split_ifs <;> decide

theorem addMappedRange_eq {range : VirtmemDesc} {pmem : PhysmemDesc}
    (hpage : range.pageWidth = width4kib) (hframe : pmem.frameWidth = width4kib)
    (hcount : pmem.nFrames = range.nPages) (useGlobalPages : Bool) (rights : BitVec 32) (sid : Sid)
    (raw : Page) (s : State) (rt : Ramtab) :
    addMappedRange useGlobalPages range pmem rights sid raw s rt =
      addMappedLoop width4kib (raw.setFlags (controlBits useGlobalPages rights pmem.attr true)) sid
        range.nPages.toNat range.startAddr pmem.startAddr s rt := by
  simp [addMappedRange, hpage, hframe, hcount, validWidth]

/-- **`add_mapped_range` is all or nothing** exactly when the pool has a table for each
level 1 entry that the range lacks, or else all pages before the first that cannot get
its table were mapped in just this way before. -/
theorem add_mapped_range_all_or_nothing_iff (R : Rep s t) (range : VirtmemDesc) (pmem : PhysmemDesc)
    (hpage : range.pageWidth = width4kib) (hframe : pmem.frameWidth = width4kib)
    (hcount : pmem.nFrames = range.nPages)
    (howned : FramesOwned rt pmem.startAddr range.nPages.toNat) (useGlobalPages : Bool)
    (rights : BitVec 32) (sid : Sid) (raw : Page) :
    let r := addMappedRange useGlobalPages range pmem rights sid raw s rt
    let flags := (raw.setFlags (controlBits useGlobalPages rights pmem.attr true)).flags
    (AllMapped range.startAddr pmem.startAddr range.nPages.toNat flags sid s rt r.1 r.2 ∨
        Unchanged s rt r.1 r.2) ↔
      Fits s range.startAddr range.nPages.toNat ∨
        ∀ i < range.nPages.toNat, Fits s range.startAddr (i + 1) →
          AlreadyMapped range.startAddr pmem.startAddr flags sid i s rt := by
  intro r flags
  obtain ⟨d, s', t', hrun, hle, h, hstop⟩ :=
    R.addMappedLoop (raw.setFlags (controlBits useGlobalPages rights pmem.attr true)) sid
      range.nPages.toNat rt range.startAddr pmem.startAddr
  have hr : r = (s', markFrames d pmem.startAddr rt) :=
    (addMappedRange_eq hpage hframe hcount useGlobalPages rights sid raw s rt).trans hrun
  rw [hr]
  exact h.allOrNothing_iff R hle hstop
    (Page.isPresent_setFlags _ (controlBits_swapped useGlobalPages rights pmem.attr)) howned

/-- The page tables after 31 pages in as many chunks: one spare table is left. -/
def oneTableLeft : State :=
  (run (create [] 0#32 0#32 ⟨fun _ => 0, []⟩) ((List.range 31).map fun i =>
    .add4kPage (BitVec.ofNat 32 (0x400000 * i)) ⟨5#32⟩ 4#16)).2

theorem exists_rep_oneTableLeft : ∃ t, Rep oneTableLeft t := by
  obtain ⟨t, R, -⟩ := @run_rep _ _ _ [] (create_rep [] 0#32 0#32 ⟨fun _ => 0, []⟩)
    (fun _ _ => rfl)
  exact ⟨t, R⟩

/-- A ramtab whose frames all have an owner. -/
def ownedRamtab : Ramtab := ⟨0x100000, fun _ => ⟨1, 12, .unused⟩⟩

theorem ownedRamtab_framesOwned (phys : Address) (n : Nat) : FramesOwned ownedRamtab phys n := by
  intro i _
  have hlt : frameOf phys i < 0x100000 := by
    have := (pageAt phys i).isLt
    rw [frameOf]
    omega
  exact ⟨⟨1, 12, .unused⟩, if_pos hlt, by decide, by decide, by decide⟩

theorem fits_oneTableLeft : Fits oneTableLeft 0x7fff000#32 1 := by decide +kernel

/-- One page in the last chunk that can get a table. -/
theorem add_mapped_range_last_table :
    Fits oneTableLeft 0x7fff000#32 1 ∧
      ∃ r, addMappedRange false ⟨0x7fff000#32, 1#32, 12⟩ ⟨0x5000#32, 1#32, 12, 0#32⟩ 3#32 9#16 ⟨0#32⟩
          oneTableLeft ownedRamtab = r ∧
        (AllMapped 0x7fff000#32 0x5000#32 1 6#32 9#16 oneTableLeft ownedRamtab r.1 r.2 ∨
          Unchanged oneTableLeft ownedRamtab r.1 r.2) := by
  obtain ⟨t, R⟩ := exists_rep_oneTableLeft
  have hfits := fits_oneTableLeft
  exact ⟨hfits, _, rfl, (add_mapped_range_all_or_nothing_iff R ⟨0x7fff000#32, 1#32, 12⟩
    ⟨0x5000#32, 1#32, 12, 0#32⟩ rfl rfl rfl (ownedRamtab_framesOwned _ _) false 3#32 9#16
    ⟨0#32⟩).mpr (.inl hfits)⟩

/-- **Two pages across a 4 MiB boundary with one table left**: the first is mapped and its
frame marked, the second is not. -/
theorem add_mapped_range_half_made :
    ∃ r, addMappedRange false ⟨0x7fff000#32, 2#32, 12⟩ ⟨0x5000#32, 2#32, 12, 0#32⟩ 3#32 9#16 ⟨0#32⟩
        oneTableLeft ownedRamtab = r ∧
      ¬ (AllMapped 0x7fff000#32 0x5000#32 2 6#32 9#16 oneTableLeft ownedRamtab r.1 r.2 ∨
        Unchanged oneTableLeft ownedRamtab r.1 r.2) := by
  obtain ⟨t, R⟩ := exists_rep_oneTableLeft
  obtain ⟨d, s', t', hrun, hle, h, hstop⟩ := R.addMappedLoop
    ((⟨0#32⟩ : Page).setFlags (controlBits false 3#32 0#32 true)) 9#16 2 ownedRamtab 0x7fff000#32
    0x5000#32
  refine ⟨_, (addMappedRange_eq rfl rfl rfl ..).trans hrun, fun hall => ?_⟩
  have hiff := h.allOrNothing_iff R hle hstop
    (Page.isPresent_setFlags _ (controlBits_swapped ..)) (ownedRamtab_framesOwned _ _)
  rcases hiff.mp hall with hfits | halready
  · exact absurd hfits (by decide +kernel)
  · exact not_pageMapped (by decide +kernel)
      (halready 0 (by decide) fits_oneTableLeft).1

end Metta.MmuMod
