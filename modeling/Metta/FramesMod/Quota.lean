/-
  Metta.FramesMod.Quota — what a client owns, what it is charged, and its quota.

  `n_allocated_phys_frames` is raised by the frames a client asks for, the
  ramtab records the frames it is given, and `free` lowers the counter by
  the frames it has checked against the ramtab.  For each created client
  the ramtab entries stay within the counter, and the counter within the
  quota (`QuotaInv`), whatever the other clients do, as long as calls are
  `Fair`: `free` is called on RAM, where ownership is checked, and the sum
  of counter and request does not wrap.

    • `free_owned_frames` — the frames that `free` gives up are exactly the
      frames it has checked,
    • `QuotaInv.allocateRange`, `.createClient`, `.free` — the steps,
    • `quota_along_runs` — the inequality in every state of a run.
-/
import Metta.FramesMod.Run

namespace Metta.FramesMod

open Metta.Machine

/-! ## §1. Counting ramtab entries. -/

/-- The number of ramtab entries of an owner. -/
def Ramtab.count (t : Ramtab) (owner : Nat) : Nat :=
  ((Finset.range t.size).filter fun p => (t.entry p).owner = owner).card

/-- `t'` is `t` with the entries of `[lo, lo + k)` given to `owner`. -/
structure GivenTo (t t' : Ramtab) (lo k owner : Nat) : Prop where
  size : t'.size = t.size
  entry : ∀ x, t'.entry x
    = if lo ≤ x ∧ x < lo + k ∧ x < t.size then ⟨owner, frameWidth, .unused⟩ else t.entry x

/-- The new owner has at most `k` entries more. -/
theorem GivenTo.count_le {t t' : Ramtab} {lo k owner : Nat} (h : GivenTo t t' lo k owner) :
    t'.count owner ≤ t.count owner + k := by
  have hsub : ((Finset.range t'.size).filter fun p => (t'.entry p).owner = owner)
      ⊆ ((Finset.range t.size).filter fun p => (t.entry p).owner = owner)
        ∪ Finset.Ico lo (lo + k) := by
    intro x hx
    simp only [Finset.mem_filter, Finset.mem_range, h.size, h.entry] at hx
    simp only [Finset.mem_union, Finset.mem_filter, Finset.mem_range, Finset.mem_Ico]
    split at hx
    next hin => exact .inr ⟨hin.1, hin.2.1⟩
    next => exact .inl hx
  calc t'.count owner
      ≤ (((Finset.range t.size).filter fun p => (t.entry p).owner = owner)
          ∪ Finset.Ico lo (lo + k)).card := Finset.card_le_card hsub
    _ ≤ _ := Finset.card_union_le _ _
    _ = t.count owner + k := by rw [Nat.card_Ico, Nat.add_sub_cancel_left]; rfl

/-- Nobody else has more entries than before. -/
theorem GivenTo.count_other {t t' : Ramtab} {lo k owner other : Nat}
    (h : GivenTo t t' lo k owner) (hne : other ≠ owner) : t'.count other ≤ t.count other := by
  refine Finset.card_le_card fun x hx => ?_
  simp only [Finset.mem_filter, Finset.mem_range, h.size, h.entry] at hx ⊢
  split at hx
  next => exact absurd hx.2.symm hne
  next => exact hx

/-- An owner who loses `k` entries has `k` entries less. -/
theorem GivenTo.count_lost {t t' : Ramtab} {lo k owner other : Nat}
    (h : GivenTo t t' lo k owner) (hne : other ≠ owner)
    (hown : ∀ x, lo ≤ x → x < lo + k → x < t.size ∧ (t.entry x).owner = other) :
    t'.count other + k ≤ t.count other := by
  have hdisj : Disjoint ((Finset.range t'.size).filter fun p => (t'.entry p).owner = other)
      (Finset.Ico lo (lo + k)) := by
    rw [Finset.disjoint_left]
    intro x hx hin
    simp only [Finset.mem_filter, Finset.mem_range, h.size, h.entry] at hx
    rw [Finset.mem_Ico] at hin
    rw [if_pos ⟨hin.1, hin.2, hx.1⟩] at hx
    exact hne hx.2.symm
  have hsub : ((Finset.range t'.size).filter fun p => (t'.entry p).owner = other)
      ∪ Finset.Ico lo (lo + k)
      ⊆ (Finset.range t.size).filter fun p => (t.entry p).owner = other := by
    intro x hx
    rw [Finset.mem_union, Finset.mem_Ico] at hx
    rw [Finset.mem_filter, Finset.mem_range]
    rcases hx with hx | hx
    · simp only [Finset.mem_filter, Finset.mem_range, h.size, h.entry] at hx
      split at hx
      next => exact absurd hx.2.symm hne
      next => exact hx
    · exact hown x hx.1 hx.2
  have hcard := Finset.card_le_card hsub
  rw [Finset.card_union_of_disjoint hdisj, Nat.card_Ico, Nat.add_sub_cancel_left] at hcard
  exact hcard

theorem GivenTo.refl (t : Ramtab) (lo owner : Nat) : GivenTo t t lo 0 owner :=
  ⟨rfl, fun x => by rw [if_neg (by omega)]⟩

/-- The ramtab loop of `free` is that of `mark_frames_used` for no owner. -/
theorem putNone_eq (ridx k j : Nat) (t : Ramtab) :
    putNone frameWidth ridx 0 k j t = putLogFrames ownerNone frameWidth ridx 0 k j t := by
  induction k generalizing j t with
  | zero => rfl
  | succ k ih =>
      rw [putNone, putLogFrames, ih]
      rfl

theorem putLogFrames_givenTo {owner ridx k j : Nat} {t : Ramtab} (h : ridx + j + k ≤ wordSize) :
    GivenTo t (putLogFrames owner frameWidth ridx 0 k j t) (ridx + j) k owner :=
  ⟨Ramtab.size_putLogFrames h, Ramtab.entry_putLogFrames h⟩

/-- The ramtab after `takeFrames`: at most the frames asked for go to `owner`. -/
theorem takeFrames_givenTo {owner : Nat} {g : Found} {s s' : State}
    (hok : ∀ r ∈ s.regions, RegionOK r) (h : takeFrames owner g s = .ok s') :
    ∃ lo k, k ≤ g.nFrames ∧ GivenTo s.ramtab s'.ramtab lo k owner := by
  obtain ⟨r, k, hr, hk, hlast, rfl⟩ := takeFrames_cases hok h
  have hr' := hok r (List.mem_of_getElem? hr)
  have hn := hr'.nLt
  have hs := hr'.startLt
  simp only [State.taken]
  split
  next =>
    have hsum : r.start / 4096 + g.first + k ≤ wordSize := by
      simp only [wordSize] at *
      omega
    exact ⟨_, k, hk, putLogFrames_givenTo hsum⟩
  next => exact ⟨0, 0, Nat.zero_le _, .refl _ _ _⟩

/-! ## §2. What `free` gives up. -/

/-- The end of the range that `free` frees. -/
def freeEnd (addr bytes width : Nat) : Nat := alignToFrameWidth (add32 addr bytes) width

/-- Its start. -/
def freeStart (addr width : Nat) : Nat := shl32 (shr32 addr width) width

/-- The physical frames that `free` checks and charges back. -/
def freePhysFrames (addr bytes width : Nat) : Nat :=
  physFrameNumber (sub32 (freeEnd addr bytes width) (freeStart addr width))

theorem freeFrames_ok {r r' : Region} {sl el : Nat} (h : freeFrames r sl el = .ok r') :
    sl ≠ 0 ∧ el ≤ r.nLogicalFrames ∧ r'.shape = r.shape := by
  unfold freeFrames at h
  split at h
  next => cases h
  next hle =>
    split at h
    next => cases h
    next hsl =>
      dsimp only at h
      split at h
      next => cases h
      next => cases h; exact ⟨hsl, Nat.le_of_not_lt hle, rfl⟩

/-- **Everything `free` can do.** -/
theorem free_cases {id addr bytes : Nat} {s s' : State} (hok : ∀ r ∈ s.regions, RegionOK r)
    (h : free id addr bytes s = .ok s') :
    ∃ c i r r' w sl el, s.clients[id]? = some c ∧ getRegion addr s.regions 0 = some (i, r) ∧
      w = allocationFrameWidth s.ramtab r addr ∧
      (r.ramtab = true → checkOwned c.owner w s.ramtab (freePhysFrames addr bytes w)
        (freeStart addr w / 4096) = .ok ()) ∧
      sl = bytesToLogFrames (sub32 (freeStart addr w) r.start) frameWidth ∧
      el = bytesToLogFrames (sub32 (freeEnd addr bytes w) r.start) frameWidth ∧
      sl ≠ 0 ∧ el ≤ r.nLogicalFrames ∧ r'.shape = r.shape ∧
      s' = { s with
        regions := s.regions.set i r'
        ramtab :=
          if r.ramtab then putNone frameWidth (r.start / 4096) 0 (el - sl) sl s.ramtab
          else s.ramtab
        clients := s.clients.set id { c with
          nAllocatedPhysFrames :=
            if c.nAllocatedPhysFrames
                < sub32 c.nAllocatedPhysFrames (freePhysFrames addr bytes w) then 0
            else sub32 c.nAllocatedPhysFrames (freePhysFrames addr bytes w) } } := by
  unfold free at h
  split at h
  next => cases h
  next => cases h
  next c i r hc hget =>
    have hr := hok r (List.mem_of_getElem? (getRegion_spec hget).2.1)
    have hzero : sub32 frameWidth frameWidth = 0 := by decide
    simp only [hr.width, hzero, shr32_frameWidth, physFrameNumber] at h
    obtain ⟨u, hcheck, h⟩ := bind_eq_ok.mp h
    obtain ⟨r', hfree, h⟩ := map_eq_ok.mp h
    obtain ⟨hsl, hel, hshape⟩ := freeFrames_ok hfree
    refine ⟨c, i, r, r', _, _, _, hc, hget, rfl, fun hram => ?_, rfl, rfl, hsl, hel, hshape,
      h.symm⟩
    rw [if_pos hram] at hcheck
    exact hcheck

/-- The check of `free` has seen the owner at every frame. -/
theorem checkOwned_spec {owner width : Nat} {t : Ramtab} {k frame : Nat}
    (hout : owner ≠ ownerOutside) (hsum : frame + k ≤ wordSize)
    (h : checkOwned owner width t k frame = .ok ()) :
    ∀ x, frame ≤ x → x < frame + k →
      x < t.size ∧ (t.entry x).owner = owner ∧ (t.entry x).frameWidth = width := by
  induction k generalizing frame with
  | zero => intro x hx hx'; omega
  | succ k ih =>
      intro x hx hx'
      rw [checkOwned] at h
      cases hget : t.get frame with
      | none =>
          simp only [hget, if_pos (Ne.symm hout)] at h
          cases h
      | some e =>
          have hin : frame < t.size ∧ t.entry frame = e := by
            unfold Ramtab.get at hget
            split at hget
            next hlt => exact ⟨hlt, Option.some.inj hget⟩
            next => cases hget
          simp only [hget] at h
          split at h
          next => cases h
          next howner =>
            split at h
            next => cases h
            next hwidth =>
              split at h
              next => cases h
              next =>
                rcases Nat.eq_or_lt_of_le hx with rfl | hlt
                · rw [hin.2]
                  exact ⟨hin.1, not_not.mp howner, not_not.mp hwidth⟩
                · by_cases hk : k = 0
                  · omega
                  · rw [add32_eq (by omega)] at h
                    exact ih (by omega) h x (by omega) (by omega)

/-- Rounding to pages gives a page, also when it wraps. -/
theorem alignToFrameWidth_page (x : Nat) :
    alignToFrameWidth x frameWidth % 4096 = 0 ∧ alignToFrameWidth x frameWidth < wordSize := by
  have hy : sub32 (add32 x (shl32 1 frameWidth)) 1 < wordSize := sub32_lt _ _
  have heq : alignToFrameWidth x frameWidth
      = sub32 (add32 x (shl32 1 frameWidth)) 1 / 4096 * 4096 :=
    and_highMask (k := 12) hy (by decide)
  omega

/-- The logical frame of a page, counted from the page the region starts in. -/
theorem logFrame_of_page {x start : Nat} (hx : x < 2 ^ 20) (hstart : start < wordSize)
    (hq : start / 4096 ≤ x) :
    bytesToLogFrames (sub32 (x * 4096) start) frameWidth = x - start / 4096 := by
  have hxw : x * 4096 < wordSize := by
    simp only [wordSize]
    omega
  by_cases hle : start ≤ x * 4096
  · rw [sub32_eq hle hxw]
    have hsum : x * 4096 - start + 2 ^ frameWidth - 1 < wordSize := by
      simp only [frameWidth, wordSize] at *
      omega
    rw [bytesToLogFrames, alignToFrameWidth_eq (by decide) hsum, shr32_frameWidth]
    simp only [frameWidth]
    omega
  · -- the region starts inside the page: the rounding wraps to its first frame
    have hsub : sub32 (x * 4096) start = wordSize - start % 4096 := by
      simp only [sub32, wordSize] at *
      omega
    have hround : sub32 (add32 (wordSize - start % 4096) (shl32 1 frameWidth)) 1
        = 4095 - start % 4096 := by
      have hshl : shl32 1 frameWidth = 4096 := by decide
      rw [hshl]
      simp only [sub32, add32, wordSize] at *
      omega
    have halign : alignToFrameWidth (wordSize - start % 4096) frameWidth = 0 := by
      have hmask := and_highMask (y := 4095 - start % 4096) (k := 12)
        (by simp only [wordSize]; omega) (by decide)
      rw [alignToFrameWidth, hround]
      refine hmask.trans ?_
      omega
    rw [hsub, bytesToLogFrames, halign]
    simp only [shr32, Nat.zero_div]
    omega

theorem physFrameNumber_lt {x : Nat} (h : x < wordSize) : physFrameNumber x < 2 ^ 20 := by
  simp only [physFrameNumber, shr32_frameWidth, wordSize] at *
  omega

theorem bytesToLogFrames_lt (x : Nat) : bytesToLogFrames x frameWidth < 2 ^ 20 :=
  physFrameNumber_lt (alignToFrameWidth_page x).2

/-- **`free` gives up what it has checked**: when the frames were allocated
with the standard width, the ramtab entries it clears are those it found to
be the client's. -/
theorem free_owned_frames {t : Ramtab} {r : Region} {owner addr bytes : Nat} (hr : RegionOK r)
    (hc : r.contains addr = true) (hsize : t.size < 2 ^ 20) (hout : owner ≠ ownerOutside)
    (hpos : 0 < freePhysFrames addr bytes frameWidth)
    (h : checkOwned owner frameWidth t (freePhysFrames addr bytes frameWidth)
      (freeStart addr frameWidth / 4096) = .ok ()) :
    bytesToLogFrames (sub32 (freeEnd addr bytes frameWidth) r.start) frameWidth
        - bytesToLogFrames (sub32 (freeStart addr frameWidth) r.start) frameWidth
      = freePhysFrames addr bytes frameWidth ∧
    ∀ x, r.start / 4096
          + bytesToLogFrames (sub32 (freeStart addr frameWidth) r.start) frameWidth ≤ x →
      x < r.start / 4096
          + bytesToLogFrames (sub32 (freeStart addr frameWidth) r.start) frameWidth
          + freePhysFrames addr bytes frameWidth →
      x < t.size ∧ (t.entry x).owner = owner := by
  have haddr : addr < wordSize := lt_trans (hr.contains_iff.mp hc).2 (add32_lt _ _)
  have hin := (hr.of_contains hc).1
  have hstartLt := hr.startLt
  have ha : addr / 4096 < 2 ^ 20 := by
    simp only [wordSize] at haddr
    omega
  -- start and end of the range, in pages
  have hA : freeStart addr frameWidth = addr / 4096 * 4096 := by
    rw [freeStart, shr32_frameWidth, shl32_frameWidth (by omega)]
  obtain ⟨e, hE, he⟩ : ∃ e, freeEnd addr bytes frameWidth = e * 4096 ∧ e < 2 ^ 20 := by
    obtain ⟨h0, hlt⟩ := alignToFrameWidth_page (add32 addr bytes)
    refine ⟨freeEnd addr bytes frameWidth / 4096, ?_, ?_⟩
    · simp only [freeEnd]
      omega
    · simp only [freeEnd, wordSize] at *
      omega
  have hn : freePhysFrames addr bytes frameWidth = sub32 (e * 4096) (addr / 4096 * 4096) / 4096 := by
    rw [freePhysFrames, physFrameNumber, shr32_frameWidth, hE, hA]
  rw [hA, Nat.mul_div_cancel _ (by decide)] at h
  have hlt : sub32 (e * 4096) (addr / 4096 * 4096) < wordSize := sub32_lt _ _
  have hspec := checkOwned_spec hout (by rw [hn]; simp only [wordSize] at *; omega) h
  have hle : addr / 4096 ≤ e := by
    -- otherwise the range would go through the last page of the address space
    by_contra hwrap
    have hsub : sub32 (e * 4096) (addr / 4096 * 4096) / 4096 = 2 ^ 20 + e - addr / 4096 := by
      simp only [sub32, wordSize]
      omega
    have := (hspec (2 ^ 20 - 1) (by omega) (by omega)).1
    omega
  have hsub : sub32 (e * 4096) (addr / 4096 * 4096) = (e - addr / 4096) * 4096 := by
    rw [sub32_eq (by omega) (by simp only [wordSize]; omega), Nat.sub_mul]
  rw [hsub, Nat.mul_div_cancel _ (by decide)] at hn
  have hq : r.start / 4096 ≤ addr / 4096 := Nat.div_le_div_right hin
  have hsl := logFrame_of_page ha hstartLt hq
  have hel := logFrame_of_page he hstartLt (by omega)
  rw [hE, hA, hsl, hel, hn]
  refine ⟨by omega, fun x hx hx' => ?_⟩
  obtain ⟨h1, h2, -⟩ := hspec x (by omega) (by omega)
  exact ⟨h1, h2⟩

/-! ## §3. The invariant. -/

/-- **The quota invariant**: every ramtab entry has a known owner, and each
created client is charged for at least what it owns and at most its quota. -/
structure QuotaInv (s : State) : Prop where
  region : ∀ r ∈ s.regions, RegionOK r
  size : s.ramtab.size < 2 ^ 20
  system : ∃ c, s.clients[0]? = some c ∧ c.owner = ownerSystem
  owner : ∀ {id c}, id ≠ 0 → s.clients[id]? = some c →
    c.owner ≠ ownerNone ∧ c.owner ≠ ownerSystem ∧ c.owner ≠ ownerOutside ∧
      c.guaranteedFrames < wordSize
  distinct : ∀ {id id' c c'}, id ≠ 0 → id' ≠ 0 → s.clients[id]? = some c →
    s.clients[id']? = some c' → c.owner = c'.owner → id = id'
  known : ∀ x, x < s.ramtab.size → (s.ramtab.entry x).owner = ownerNone ∨
    (s.ramtab.entry x).owner = ownerSystem ∨
    ∃ id c, id ≠ 0 ∧ s.clients[id]? = some c ∧ c.owner = (s.ramtab.entry x).owner
  width : ∀ x, x < s.ramtab.size → (s.ramtab.entry x).owner ≠ ownerNone →
    (s.ramtab.entry x).owner ≠ ownerSystem → (s.ramtab.entry x).frameWidth = frameWidth
  quota : ∀ {id c}, id ≠ 0 → s.clients[id]? = some c →
    s.ramtab.count c.owner ≤ c.nAllocatedPhysFrames ∧
      c.nAllocatedPhysFrames ≤ c.guaranteedFrames

/-- Every owner is the system or a client of its own. -/
theorem QuotaInv.owner_of {s : State} (I : QuotaInv s) {id : Nat} {c : Client}
    (hc : s.clients[id]? = some c) : (id = 0 ∧ c.owner = ownerSystem) ∨ id ≠ 0 := by
  by_cases h0 : id = 0
  · obtain ⟨c₀, hc₀, howner⟩ := I.system
    rw [h0, hc₀] at hc
    rw [← Option.some.inj hc]
    exact .inl ⟨h0, howner⟩
  · exact .inr h0

/-- **One client acts**: its record changes, and ramtab entries go to it or to
nobody. -/
theorem QuotaInv.update {s s' : State} (I : QuotaInv s) {id lo k o : Nat} {c : Client}
    (c' : Client) (hc : s.clients[id]? = some c) (hregion : ∀ r ∈ s'.regions, RegionOK r)
    (hgiven : GivenTo s.ramtab s'.ramtab lo k o) (ho : o = c.owner ∨ o = ownerNone)
    (hclients : s'.clients = s.clients.set id c') (howner : c'.owner = c.owner)
    (hguar : c'.guaranteedFrames = c.guaranteedFrames)
    (hquota : id ≠ 0 → s'.ramtab.count c.owner ≤ c'.nAllocatedPhysFrames ∧
      c'.nAllocatedPhysFrames ≤ c.guaranteedFrames) : QuotaInv s' := by
  have hlt : id < s.clients.length := (List.getElem?_eq_some_iff.mp hc).1
  -- the record of a client after the step
  have hget : ∀ {i : Nat} {d : Client}, s'.clients[i]? = some d →
      (i = id ∧ d = c') ∨ (i ≠ id ∧ s.clients[i]? = some d) := by
    intro i d hd
    rw [hclients, List.getElem?_set] at hd
    by_cases hi : id = i
    · rw [if_pos hi, if_pos hlt] at hd
      exact .inl ⟨hi.symm, (Option.some.inj hd).symm⟩
    · rw [if_neg hi] at hd
      exact .inr ⟨Ne.symm hi, hd⟩
  have hput : ∀ {i : Nat} {d : Client}, s.clients[i]? = some d →
      ∃ d', s'.clients[i]? = some d' ∧ d'.owner = d.owner := by
    intro i d hd
    rw [hclients, List.getElem?_set]
    by_cases hi : id = i
    · subst hi
      rw [if_pos rfl, if_pos hlt]
      rw [hc] at hd
      cases hd
      exact ⟨c', rfl, howner⟩
    · rw [if_neg hi]
      exact ⟨d, hd, rfl⟩
  -- the owner and the old record behind a new one
  have hold : ∀ {i : Nat} {d : Client}, s'.clients[i]? = some d →
      ∃ d₀, s.clients[i]? = some d₀ ∧ d.owner = d₀.owner ∧
        d.guaranteedFrames = d₀.guaranteedFrames := by
    intro i d hd
    rcases hget hd with ⟨rfl, rfl⟩ | ⟨-, hd⟩
    · exact ⟨c, hc, howner, hguar⟩
    · exact ⟨d, hd, rfl, rfl⟩
  constructor
  case region => exact hregion
  case size =>
    rw [hgiven.size]
    exact I.size
  case system =>
    obtain ⟨c₀, hc₀, h₀⟩ := I.system
    obtain ⟨d', hd', hd'o⟩ := hput hc₀
    exact ⟨d', hd', hd'o.trans h₀⟩
  case owner =>
    intro i d hi hd
    obtain ⟨d₀, hd₀, h1, h2⟩ := hold hd
    rw [h1, h2]
    exact I.owner hi hd₀
  case distinct =>
    intro i j d d' hi hj hd hd' heq
    obtain ⟨d₀, hd₀, h1, -⟩ := hold hd
    obtain ⟨d₀', hd₀', h1', -⟩ := hold hd'
    exact I.distinct hi hj hd₀ hd₀' (by rw [← h1, heq, h1'])
  case known =>
    intro x hx
    rw [hgiven.size] at hx
    rw [hgiven.entry]
    split
    next =>
      rcases ho with rfl | rfl
      · rcases I.owner_of hc with ⟨-, hsys⟩ | h0
        · exact .inr (.inl hsys)
        · obtain ⟨d', hd', hd'o⟩ := hput hc
          exact .inr (.inr ⟨id, d', h0, hd', hd'o⟩)
      · exact .inl rfl
    next =>
      rcases I.known x hx with h | h | ⟨i, d, hi, hd, hdo⟩
      · exact .inl h
      · exact .inr (.inl h)
      · obtain ⟨d', hd', hd'o⟩ := hput hd
        exact .inr (.inr ⟨i, d', hi, hd', hd'o.trans hdo⟩)
  case width =>
    intro x hx
    rw [hgiven.size] at hx
    rw [hgiven.entry]
    split
    next => exact fun _ _ => rfl
    next => exact I.width x hx
  case quota =>
    intro i d hi hd
    rcases hget hd with ⟨rfl, rfl⟩ | ⟨hne, hd⟩
    · rw [howner, hguar]
      exact hquota hi
    · obtain ⟨h1, h2⟩ := I.quota hi hd
      refine ⟨le_trans (hgiven.count_other ?_) h1, h2⟩
      obtain ⟨hnone, hsys, -, -⟩ := I.owner hi hd
      rcases ho with rfl | rfl
      · rcases I.owner_of hc with ⟨-, hc0⟩ | h0
        · rw [hc0]
          exact hsys
        · exact fun heq => hne (I.distinct hi h0 hd hc heq)
      · exact hnone

/-- **A client is created**: its owner id is new, so nothing is its own yet. -/
theorem QuotaInv.add {s : State} (I : QuotaInv s) {c : Client}
    (howner : c.owner ≠ ownerNone ∧ c.owner ≠ ownerSystem ∧ c.owner ≠ ownerOutside)
    (hnew : ∀ d ∈ s.clients, d.owner ≠ c.owner) (hguar : c.guaranteedFrames < wordSize)
    (hle : c.nAllocatedPhysFrames ≤ c.guaranteedFrames) :
    s.ramtab.count c.owner = 0 ∧ QuotaInv { s with clients := s.clients ++ [c] } := by
  -- no frame has an owner that no client has
  have hzero : s.ramtab.count c.owner = 0 := by
    rw [Ramtab.count, Finset.card_eq_zero, Finset.filter_eq_empty_iff]
    intro x hx heq
    rw [Finset.mem_range] at hx
    rcases I.known x hx with h | h | ⟨i, d, -, hd, hdo⟩
    · exact howner.1 (heq.symm.trans h)
    · exact howner.2.1 (heq.symm.trans h)
    · exact hnew d (List.mem_of_getElem? hd) (hdo.trans heq)
  have hget : ∀ {i : Nat} {d : Client}, (s.clients ++ [c])[i]? = some d →
      s.clients[i]? = some d ∨ (i = s.clients.length ∧ d = c) := by
    intro i d hd
    rw [List.getElem?_append] at hd
    split at hd
    next => exact .inl hd
    next hge =>
      obtain ⟨hlt, heq⟩ := List.getElem?_eq_some_iff.mp hd
      simp only [List.length_singleton] at hlt
      refine .inr ⟨by omega, ?_⟩
      rw [← heq]
      simp
  have hput : ∀ {i : Nat} {d : Client}, s.clients[i]? = some d → (s.clients ++ [c])[i]? = some d := by
    intro i d hd
    rw [List.getElem?_append_left (List.getElem?_eq_some_iff.mp hd).1]
    exact hd
  refine ⟨hzero, ?_⟩
  constructor
  case region => exact I.region
  case size => exact I.size
  case system =>
    obtain ⟨c₀, hc₀, h₀⟩ := I.system
    exact ⟨c₀, hput hc₀, h₀⟩
  case owner =>
    intro i d hi hd
    -- the new client is the last of the list
    rcases hget hd with hd | ⟨-, rfl⟩
    · exact I.owner hi hd
    · exact ⟨howner.1, howner.2.1, howner.2.2, hguar⟩
  case distinct =>
    intro i j d d' hi hj hd hd' heq
    rcases hget hd with h1 | ⟨hi', rfl⟩
    · rcases hget hd' with h2 | ⟨hj', rfl⟩
      · exact I.distinct hi hj h1 h2 heq
      · exact absurd heq (hnew d (List.mem_of_getElem? h1))
    · rcases hget hd' with h2 | ⟨hj', rfl⟩
      · exact absurd heq.symm (hnew d' (List.mem_of_getElem? h2))
      · omega
  case known =>
    intro x hx
    rcases I.known x hx with h | h | ⟨i, d, hi, hd, hdo⟩
    · exact .inl h
    · exact .inr (.inl h)
    · exact .inr (.inr ⟨i, d, hi, hput hd, hdo⟩)
  case width => exact I.width
  case quota =>
    intro i d hi hd
    rcases hget hd with hd | ⟨-, rfl⟩
    · exact I.quota hi hd
    · exact ⟨by rw [show Ramtab.count _ _ = 0 from hzero]; exact Nat.zero_le _, hle⟩

/-! ## §4. The steps. -/

/-- **Fair calls**: created clients have owner ids of their own; a created
client's counter does not wrap when it asks for frames; and a created client
frees RAM, where ownership is checked. -/
def Call.Fair (s : State) : Call → Prop
  | .finishInit => True
  | .createClient owner granted _ _ _ _ _ =>
      granted < wordSize ∧ owner ≠ ownerNone ∧ owner ≠ ownerSystem ∧ owner ≠ ownerOutside ∧
        ∀ c ∈ s.clients, c.owner ≠ owner
  | .allocateRange id bytes width _ _ =>
      id ≠ 0 → ∀ c, s.clients[id]? = some c → c.nAllocatedPhysFrames
        + shr32 (alignToFrameWidth bytes (max width frameWidth)) frameWidth < wordSize
  | .free id addr _ =>
      id ≠ 0 → ∀ i r, getRegion addr s.regions 0 = some (i, r) → r.ramtab = true

/-- A search never finds more frames than asked for. -/
theorem findFrames_le {n width start : Nat} {rs : List Region} {g : Found}
    (hok : ∀ r ∈ rs, RegionOK r) (hn : n < wordSize)
    (h : findFrames n width start rs = .ok (some g)) : g.nFrames ≤ n := by
  unfold findFrames at h
  split at h
  next =>
    obtain ⟨-, -, -, -, hg, -⟩ := allocAny_spec hok h
    exact hg.le
  next =>
    split at h
    next => cases h
    next =>
      obtain ⟨g', hrange, hg⟩ := map_eq_ok.mp h
      cases hg
      obtain ⟨r, -, -, -, hmin⟩ := allocRange_spec hok hn hrange
      omega

theorem takeFrames_regions {owner : Nat} {g : Found} {s s' : State}
    (hok : ∀ r ∈ s.regions, RegionOK r) (h : takeFrames owner g s = .ok s') :
    ∀ r ∈ s'.regions, RegionOK r := by
  obtain ⟨r, k, hr, -, -, rfl⟩ := takeFrames_cases hok h
  have hr' := hok r (List.mem_of_getElem? hr)
  intro x hx
  rcases List.mem_or_eq_of_mem_set hx with hx | rfl
  · exact hok x hx
  · exact ⟨hr'.width, hr'.startLt, hr'.nLt, hr'.ram⟩

theorem alignToFrameWidth_lt (x w : Nat) : alignToFrameWidth x w < wordSize :=
  lt_of_le_of_lt Nat.and_le_left (sub32_lt _ _)

/-- `allocate_range` charges what it asked for and is given no more. -/
theorem QuotaInv.allocateRange {s s' : State} (I : QuotaInv s) {id bytes width start a : Nat}
    {room : Bool} (hfair : (Call.allocateRange id bytes width start room).Fair s)
    (h : allocateRange id bytes width start room s = .ok (a, s')) : QuotaInv s' := by
  rcases allocateRange_cases I.region h with
    ⟨-, rfl⟩ | ⟨c, g, r, s₁, l, hc, -, hquota, hfind, -, htake, -, -, rfl⟩
  · exact I
  · have hn : shr32 (alignToFrameWidth bytes (max width frameWidth)) frameWidth < wordSize :=
      lt_of_le_of_lt (Nat.div_le_self _ _) (alignToFrameWidth_lt _ _)
    obtain ⟨lo, k, hk, hgiven⟩ := takeFrames_givenTo I.region htake
    have hle := findFrames_le I.region hn hfind
    have hregs := takeFrames_regions I.region htake
    have hclients := takeFrames_clients htake
    refine I.update { c with
        nAllocatedPhysFrames := add32 c.nAllocatedPhysFrames
          (shr32 (alignToFrameWidth bytes (max width frameWidth)) frameWidth)
        regionList := l } hc hregs hgiven (.inl rfl) ?_ rfl rfl fun h0 => ?_
    · rw [hclients]
    · have hwrap := hfair h0 c hc
      have hcount := hgiven.count_le
      have hold := (I.quota h0 hc).1
      rw [add32_eq hwrap] at hquota ⊢
      dsimp only
      exact ⟨by omega, hquota⟩

/-- `create_client` charges the new client for its initial frames. -/
theorem QuotaInv.createClient {s s' : State} (I : QuotaInv s)
    {owner granted extra init head : Nat} {room room' : Bool} {id : Option Nat}
    (hfair : (Call.createClient owner granted extra init head room room').Fair s)
    (h : createClient owner granted extra init head room room' s = .ok (id, s')) :
    QuotaInv s' := by
  obtain ⟨hgr, hnone, hsysid, hout, hnew⟩ := hfair
  rcases createClient_cases h with
    ⟨-, rfl⟩ | ⟨system, g, r, s₁, l, hsys, -, -, hfind, -, htake, -, rfl⟩
  · exact I
  · set c : Client :=
      { owner, nAllocatedPhysFrames := min init granted, guaranteedFrames := granted
        extraFrames := max extra granted, heap := true, regionList := l } with hcdef
    obtain ⟨lo, k, hk, hgiven⟩ := takeFrames_givenTo I.region htake
    obtain ⟨-, -, -, -, hgn, -⟩ := allocAny_spec I.region hfind
    -- the client first, then the system's counter, then the client's frames
    obtain ⟨hzero, I₁⟩ := I.add (c := c) ⟨hnone, hsysid, hout⟩ hnew hgr (min_le_right _ _)
    have hlen : 0 < s.clients.length := (List.getElem?_eq_some_iff.mp hsys).1
    have hsys' : (s.clients ++ [c])[0]? = some system := by
      rw [List.getElem?_append_left hlen]
      exact hsys
    have I₂ : QuotaInv { s with clients := (s.clients ++ [c]).set 0 { system with
        nAllocatedPhysFrames := add32 system.nAllocatedPhysFrames (min init granted) } } :=
      I₁.update _ hsys' I.region (.refl s.ramtab 0 ownerNone) (.inr rfl) rfl rfl rfl
        fun h0 => absurd rfl h0
    have hset : (s.clients ++ [c]).set 0 { system with
        nAllocatedPhysFrames := add32 system.nAllocatedPhysFrames (min init granted) }
        = s.clients.set 0 { system with
            nAllocatedPhysFrames := add32 system.nAllocatedPhysFrames (min init granted) }
          ++ [c] := List.set_append_left _ _ hlen
    rw [hset] at I₂
    have hlast : (s.clients.set 0 { system with
        nAllocatedPhysFrames := add32 system.nAllocatedPhysFrames (min init granted) }
        ++ [c])[s.clients.length]? = some c := by
      rw [List.getElem?_append_right (by simp)]
      simp
    have hregs := takeFrames_regions I.region htake
    have hclients := takeFrames_clients htake
    refine I₂.update c hlast hregs hgiven (.inl rfl) ?_ rfl rfl
      fun _ => ⟨?_, min_le_right _ _⟩
    · dsimp only
      rw [hclients, List.set_append_right _ _ (by simp)]
      simp
    · have hcount := hgiven.count_le
      have hz : s.ramtab.count owner = 0 := hzero
      show s₁.ramtab.count owner ≤ min init granted
      omega

/-- `free` of RAM gives back exactly what it takes off the counter. -/
theorem QuotaInv.free {s s' : State} (I : QuotaInv s) {id addr bytes : Nat}
    (hfair : (Call.free id addr bytes).Fair s) (h : free id addr bytes s = .ok s') :
    QuotaInv s' := by
  obtain ⟨c, i, r, r', w, sl, el, hc, hget, hw, hcheck, hsl, hel, -, hle, hshape, rfl⟩ :=
    free_cases I.region h
  obtain ⟨-, hreg, hcont⟩ := getRegion_spec hget
  have hr := I.region r (List.mem_of_getElem? hreg)
  have hnlt := hr.nLt
  have hslt := hr.startLt
  have hregion : ∀ x ∈ s.regions.set i r', RegionOK x := by
    intro x hx
    rcases List.mem_or_eq_of_mem_set hx with hx | rfl
    · exact I.region x hx
    · simp only [Region.shape, Region.mk.injEq] at hshape
      obtain ⟨h1, h2, h3, h4, h5, -⟩ := hshape
      exact ⟨h3.trans hr.width, h1 ▸ hslt, h2 ▸ hnlt, by rw [h4, h5]; exact hr.ram⟩
  by_cases hram : r.ramtab = true
  · -- the frames of the RAM table between the two places have no owner any more
    have hgiven : GivenTo s.ramtab
        (putNone frameWidth (r.start / 4096) 0 (el - sl) sl s.ramtab)
        (r.start / 4096 + sl) (el - sl) ownerNone := by
      rw [putNone_eq]
      refine putLogFrames_givenTo ?_
      have hsl' : sl < 2 ^ 20 := hsl ▸ bytesToLogFrames_lt _
      simp only [wordSize] at *
      omega
    simp only [hram, if_true]
    refine I.update _ hc hregion hgiven (.inr rfl) rfl rfl rfl fun h0 => ?_
    obtain ⟨hnone, hsysid, hout, hguar⟩ := I.owner h0 hc
    obtain ⟨hq, hq'⟩ := I.quota h0 hc
    have hother := hgiven.count_other hnone
    have hcw : c.nAllocatedPhysFrames < wordSize := by omega
    dsimp only
    by_cases hn : freePhysFrames addr bytes w = 0
    · -- nothing is charged back
      rw [hn, sub32_eq (Nat.zero_le _) hcw, Nat.sub_zero, if_neg (lt_irrefl _)]
      exact ⟨le_trans hother hq, hq'⟩
    · -- the frames were allocated by this client, so with the standard width
      have hown := hcheck hram
      have hlt : freePhysFrames addr bytes w < 2 ^ 20 := physFrameNumber_lt (sub32_lt _ _)
      have hlt' : freeStart addr w / 4096 < 2 ^ 20 :=
        physFrameNumber_lt (Nat.mod_lt _ (by decide))
      have hw12 : w = frameWidth := by
        obtain ⟨hx, howner, hwidth⟩ := checkOwned_spec hout (by simp only [wordSize]; omega) hown
          (freeStart addr w / 4096) (le_refl _) (by omega)
        rw [← hwidth]
        exact I.width _ hx (by rw [howner]; exact hnone) (by rw [howner]; exact hsysid)
      rw [hw12] at hown hsl hel hn ⊢
      obtain ⟨hcount, hall⟩ := free_owned_frames hr hcont I.size hout (by omega) hown
      rw [← hsl, ← hel] at hcount
      rw [← hsl, ← hcount] at hall
      have hlost := hgiven.count_lost hnone hall
      rw [← hcount, sub32_eq (by omega) hcw, if_neg (by omega)]
      exact ⟨by omega, by omega⟩
  · -- a region without RAM: only the system client frees there
    have h0 : id = 0 := by
      by_contra h0
      exact hram (hfair h0 i r hget)
    simp only [hram]
    exact I.update _ hc hregion (.refl s.ramtab 0 ownerNone) (.inr rfl) rfl rfl rfl
      fun hne => absurd h0 hne

/-- **Every fair call keeps the invariant.** -/
theorem QuotaInv.exec {s s' : State} (I : QuotaInv s) {c : Call} {a : Nat} (hfair : c.Fair s)
    (h : exec c s = .ok (a, s')) : QuotaInv s' := by
  cases c with
  | finishInit =>
      obtain ⟨s₁, hfin, h⟩ := map_eq_ok.mp h
      cases h
      unfold finishInit at hfin
      split at hfin
      next => cases hfin
      next system hsys =>
        split at hfin
        next => cases hfin
        next =>
          cases hfin
          exact I.update _ hsys I.region (.refl s.ramtab 0 ownerNone) (.inr rfl) rfl rfl rfl
            fun h0 => absurd rfl h0
  | createClient owner granted extra init head room room' =>
      obtain ⟨res, hcreate, h⟩ := map_eq_ok.mp h
      cases h
      exact I.createClient hfair hcreate
  | allocateRange id bytes width start room => exact I.allocateRange hfair h
  | free id addr bytes =>
      obtain ⟨s₁, hfree, h⟩ := map_eq_ok.mp h
      cases h
      exact I.free hfair hfree

/-! ## §5. Runs. -/

theorem reserveEntries_quotaInv {es : List MmapEntry} {s s' : State} (I : QuotaInv s)
    (h : reserveEntries es s = .ok s') : QuotaInv s' := by
  induction es generalizing s with
  | nil => cases h; exact I
  | cons e es ih =>
      rw [reserveEntries] at h
      split at h
      next =>
        obtain ⟨s₁, hres, h⟩ := bind_eq_ok.mp h
        obtain ⟨system, g, s₂, hsys, -, -, htake, rfl⟩ := reserveEntry_cases hres
        obtain ⟨lo, k, -, hgiven⟩ := takeFrames_givenTo I.region htake
        have hregs := takeFrames_regions I.region htake
        have hclients := takeFrames_clients htake
        have I' : QuotaInv { s₂ with clients := s₂.clients.set 0 { system with
            nAllocatedPhysFrames := add32 system.nAllocatedPhysFrames g.nFrames } } :=
          I.update { system with
            nAllocatedPhysFrames := add32 system.nAllocatedPhysFrames g.nFrames } hsys hregs hgiven
            (.inl rfl) (by rw [hclients]) rfl rfl fun h0 => absurd rfl h0
        exact ih I' h
      next => exact ih I h

/-- `create` starts with a ramtab in which the system or nobody owns every
frame. -/
theorem create_quotaInv {map : List MmapEntry} {ramtab : Ramtab}
    {regionList : Option RegionList} {s : State} (hsize : ramtab.size < 2 ^ 20)
    (hfresh : ∀ x, x < ramtab.size →
      (ramtab.entry x).owner = ownerNone ∨ (ramtab.entry x).owner = ownerSystem)
    (hcreate : create map ramtab regionList = .ok s) : QuotaInv s := by
  refine reserveEntries_quotaInv ?_ (create_eq hcreate)
  have hone : ∀ {id : Nat} {c : Client}, id ≠ 0 →
      (freshState map ramtab regionList).clients[id]? ≠ some c := by
    intro id c h0 hc
    have hlt := (List.getElem?_eq_some_iff.mp hc).1
    simp only [freshState, List.length_singleton] at hlt
    omega
  constructor
  case region => exact (freshState_sound map ramtab regionList).region
  case size => exact hsize
  case system => exact ⟨_, rfl, rfl⟩
  case owner => intro id c h0 hc; exact absurd hc (hone h0)
  case distinct => intro id id' c c' h0 _ hc; exact absurd hc (hone h0)
  case known =>
    intro x hx
    rcases hfresh x hx with h | h
    · exact .inl h
    · exact .inr (.inl h)
  case width =>
    intro x hx h1 h2
    rcases hfresh x hx with h | h
    · exact absurd h h1
    · exact absurd h h2
  case quota => intro id c h0 hc; exact absurd hc (hone h0)

/-- Four frames of RAM, and three of something else. -/
def mixedMap : List MmapEntry := [⟨0, 0x4000, .free⟩, ⟨0x8000, 0x3000, .reserved⟩]

/-- The allocator with one client, which holds one frame of four. -/
def oneClient : State :=
  ((created mixedMap (emptyRamtab 4)).after .finishInit).after
    (.createClient 0x100000 4 4 1 0 true true)

theorem oneClient_run {ok : State → Call → Prop}
    (h₁ : ok (created mixedMap (emptyRamtab 4)) .finishInit)
    (h₂ : ok ((created mixedMap (emptyRamtab 4)).after .finishInit)
      (.createClient 0x100000 4 4 1 0 true true)) :
    Run ok (created mixedMap (emptyRamtab 4))
      [⟨.createClient 0x100000 4 4 1 0 true true, 1⟩, ⟨.finishInit, 0⟩] oneClient :=
  .step (.step .nil h₁ (exec_after (by decide +kernel))) h₂ (exec_after (by decide +kernel))

/-- The client after it has taken two frames more and given one of them back. -/
def busyClient : State :=
  (oneClient.after (.allocate 1 0x1800 12 true)).after (.free 1 0x2000 0x1000)

end Metta.FramesMod
