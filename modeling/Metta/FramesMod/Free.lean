/-
  Metta.FramesMod.Free — what `free` does to the counters.

  `free` rebuilds the counters of a region from the back.  Its first loop
  starts at `end_log_frame` itself, the frame after the range: that frame, and
  with it every frame the two loops touch, gets a counter that is one too
  large.  A range that ends with its region makes the loop write past the
  array, and one that starts in the first frame never leaves it.

    • `freeFrames_frames` — the counters the first loop leaves,
    • `free_returns`      — the frame after the range, when `free` returns,
    • `free_never_restores` — no range is given back as it was taken.
-/
import Metta.FramesMod.Quota

namespace Metta.FramesMod

open Metta.Machine

/-! ## §1. The two loops. -/

/-- The first loop counts up from the counter it is given, going down. -/
theorem raiseFreed_apply {k i endFree : Nat} {f : Nat → Nat} (hk : k ≤ i + 1)
    (hlt : endFree + k < wordSize) (x : Nat) :
    (raiseFreed k i endFree f).1 x
      = if i + 1 - k ≤ x ∧ x ≤ i then endFree + (i - x) + 1 else f x := by
  induction k generalizing i endFree f with
  | zero => rw [raiseFreed, if_neg (by omega)]
  | succ k ih =>
      have hone : add32 endFree 1 = endFree + 1 := add32_eq (by omega)
      rw [raiseFreed, hone]
      by_cases hk0 : k = 0
      · subst hk0
        by_cases hx : x = i
        · subst hx
          rw [if_pos (by omega), Nat.sub_self]
          exact Function.update_self ..
        · rw [if_neg (by omega)]
          exact Function.update_of_ne hx ..
      · rw [ih (by omega) (by omega)]
        by_cases hx : x = i
        · subst hx
          rw [if_neg (by omega), if_pos (by omega), Function.update_self, Nat.sub_self]
        · rw [Function.update_of_ne hx]
          by_cases hin : i - 1 + 1 - k ≤ x ∧ x ≤ i - 1
          · rw [if_pos hin, if_pos (by omega)]
            omega
          · rw [if_neg hin, if_neg (by omega)]

/-- The second loop stays below the frame it starts from. -/
theorem raisePredecessors_above {i endFree : Nat} {f : Nat → Nat} {x : Nat} (hx : i ≤ x) :
    raisePredecessors i endFree f x = f x := by
  induction i generalizing endFree f with
  | zero => rfl
  | succ i ih =>
      rw [raisePredecessors]
      split
      next => rfl
      next => rw [ih (by omega), Function.update_of_ne (by omega)]

/-- **The counters `free` leaves**: from the start of the range up to the frame
after it, they count one more than the frames up to the next one in use. -/
theorem freeFrames_frames {r r' : Region} {sl el : Nat} (h : freeFrames r sl el = .ok r')
    (hlt : r.frames el + (el + 1) < wordSize) :
    ∀ x, sl ≤ x → r'.frames x = if x ≤ el then r.frames el + (el - x) + 1 else r.frames x := by
  unfold freeFrames at h
  split at h
  next => cases h
  next hle =>
    split at h
    next => cases h
    next hsl =>
      dsimp only at h
      split at h
      next => cases h
      next hne =>
        cases h
        intro x hx
        dsimp only
        by_cases hsle : sl ≤ el
        · rw [if_pos hsle, raisePredecessors_above (by omega),
            raiseFreed_apply (by omega) (by omega)]
          by_cases hxe : x ≤ el
          · rw [if_pos (by omega), if_pos hxe]
          · rw [if_neg (by omega), if_neg hxe]
        · rw [if_neg hsle, raisePredecessors_above (by omega), if_neg (by omega),
            show el + 1 - sl = 0 by omega, raiseFreed]

/-! ## §2. A range that is given back. -/

/-- The counters of every region are right, for the frames `held`. -/
structure Exact (held : Nat → Nat → Prop) (s : State) : Prop where
  region : ∀ {i : Nat} {r : Region}, s.regions[i]? = some r → RegionOK r
  counts : ∀ {i : Nat} {r : Region}, s.regions[i]? = some r → Counts (held i) r.nLogicalFrames r.frames

theorem Sound.exact {s : State} (S : Sound s) : Exact (busy s.grants) s where
  region := fun hr => S.region _ (List.mem_of_getElem? hr)
  counts := fun hr => S.counts hr

theorem Exact.count_lt {held : Nat → Nat → Prop} {s : State} (E : Exact held s) {i j : Nat}
    {r : Region} (hr : s.regions[i]? = some r) (hj : j < r.nLogicalFrames) :
    r.frames j + (j + 1) < wordSize := by
  have hbound := (E.counts hr j hj).bound
  have hn := (E.region hr).nLt
  simp only [wordSize]
  omega

/-- `bytes` bytes at `addr` are a live allocation of client `id`: the frames
`[start, end_)` of region `i`, and the client owns them. -/
structure Live (held : Nat → Nat → Prop) (s : State) (id addr bytes i start end_ : Nat)
    (c : Client) (r : Region) : Prop where
  client : s.clients[id]? = some c
  region : getRegion addr s.regions 0 = some (i, r)
  first : addr = r.start + start * 4096
  pos : 0 < bytes
  more : end_ * 4096 < (start + 1) * 4096 + bytes
  upTo : start * 4096 + bytes ≤ end_ * 4096
  inside : end_ ≤ r.nLogicalFrames
  taken : ∀ j, start ≤ j → j < end_ → held i j
  owned : r.ramtab = true → ∀ j, start ≤ j → j < end_ →
    s.ramtab.get (r.start / 4096 + j) = some ⟨c.owner, frameWidth, .unused⟩

/-- What giving the range back is meant to do: the counters are right with the
range no longer held, its frames have no owner, the client's count goes down by
the number of frames, and nothing else is touched. -/
structure Restored (held : Nat → Nat → Prop) (s : State) (id i start end_ : Nat) (r : Region)
    (s' : State) : Prop where
  exact : Exact (fun k j => held k j ∧ ¬ (k = i ∧ start ≤ j ∧ j < end_)) s'
  shape : SameShape s s'
  regions : ∀ k, k ≠ i → s'.regions[k]? = s.regions[k]?
  size : s'.ramtab.size = s.ramtab.size
  entry : ∀ x, x < s.ramtab.size → s'.ramtab.entry x =
    if r.ramtab = true ∧ r.start / 4096 + start ≤ x ∧ x < r.start / 4096 + end_ then
      { s.ramtab.entry x with owner := ownerNone }
    else s.ramtab.entry x
  clients : s'.clients = s.clients.modify id fun c =>
    { c with nAllocatedPhysFrames := c.nAllocatedPhysFrames - (end_ - start) }

variable {held : Nat → Nat → Prop} {s s' : State} {id addr bytes i start end_ : Nat}
  {c : Client} {r : Region}

theorem Live.lt (L : Live held s id addr bytes i start end_ c r) : start < end_ := by
  have hpos := L.pos
  have hupTo := L.upTo
  omega

theorem Live.regionOK (L : Live held s id addr bytes i start end_ c r) (E : Exact held s) :
    RegionOK r :=
  E.region (getRegion_spec L.region).2.1

theorem Live.addr_lt (L : Live held s id addr bytes i start end_ c r) (hr : RegionOK r) :
    addr < wordSize :=
  lt_trans (hr.contains_iff.mp (getRegion_spec L.region).2.2).2 (add32_lt _ _)

/-- The logical frames `free` finds for the start and the end of a live range.
In a region that does not start on a page the end is a frame late, or wraps. -/
theorem Live.logFrames (L : Live held s id addr bytes i start end_ c r) (hr : RegionOK r) :
    bytesToLogFrames (sub32 (freeStart addr frameWidth) r.start) frameWidth = start ∧
      ∃ el, bytesToLogFrames (sub32 (freeEnd addr bytes frameWidth) r.start) frameWidth = el ∧
        (end_ ≤ el ∨ el = 0) := by
  have hcontains := (getRegion_spec L.region).2.2
  have hend := hr.end_lt hcontains
  -- what a live allocation says, for omega
  have hinside := L.inside
  have hmore := L.more
  have hupTo := L.upTo
  have hlt := L.lt
  have hfirst := L.first
  have hstart := hr.startLt
  simp only [Region.bytes] at hend
  have hpage : addr / 4096 < 2 ^ 20 := physFrameNumber_lt (L.addr_lt hr)
  have hword : addr / 4096 * 4096 < wordSize :=
    lt_of_le_of_lt (Nat.div_mul_le_self ..) (L.addr_lt hr)
  constructor
  · -- the start lies on a page already, rounded down or not
    have hA : freeStart addr frameWidth = addr / 4096 * 4096 := by
      rw [freeStart, shr32_frameWidth, shl32_frameWidth hword]
    rw [hA, logFrame_of_page hpage hstart (by omega)]
    omega
  · rw [freeEnd, add32_eq (by omega)]
    by_cases hsum : addr + bytes + 2 ^ frameWidth - 1 < wordSize
    · -- the end is rounded up to a page
      rw [alignToFrameWidth_eq (by decide) hsum]
      simp only [frameWidth, wordSize] at hsum ⊢
      rw [show 2 ^ 12 = 4096 by rfl] at hsum ⊢
      have hframe := logFrame_of_page (x := (addr + bytes + 4096 - 1) / 4096) (by omega) hstart
        (by omega)
      simp only [frameWidth] at hframe
      exact ⟨_, hframe, .inl (by omega)⟩
    · -- the region starts inside a page and ends in the last page
      have hround : alignToFrameWidth (addr + bytes) frameWidth = 0 := by
        have hshl : shl32 1 frameWidth = 4096 := by decide
        have hmask := and_highMask (y := addr + bytes + 4095 - wordSize) (k := 12)
          (by simp only [wordSize] at *; omega) (by decide)
        have hsub : sub32 (add32 (addr + bytes) 4096) 1 = addr + bytes + 4095 - wordSize := by
          simp only [sub32, add32, frameWidth, wordSize] at *
          omega
        rw [alignToFrameWidth, hshl, hsub]
        refine hmask.trans ?_
        simp only [wordSize] at *
        omega
      rw [hround]
      by_cases hp : r.start < 4096
      · have hframe := logFrame_of_page (x := 0) (by norm_num) hstart (by omega)
        rw [Nat.zero_mul] at hframe
        exact ⟨_, hframe, .inr (by omega)⟩
      · have hsub : sub32 0 r.start = wordSize - r.start := by
          simp only [sub32, wordSize] at *
          omega
        rw [hsub, bytesToLogFrames, alignToFrameWidth_eq (by decide)
          (by simp only [frameWidth, wordSize] at *; omega), shr32_frameWidth]
        refine ⟨_, rfl, .inl ?_⟩
        simp only [frameWidth, wordSize] at *
        omega

/-- `free` rounds to the width of the region. -/
theorem Live.width (L : Live held s id addr bytes i start end_ c r) (hr : RegionOK r) :
    allocationFrameWidth s.ramtab r addr = frameWidth := by
  unfold allocationFrameWidth
  split
  next hram =>
    have hlt := L.lt
    have hfirst := L.first
    have hpage : physFrameNumber addr = r.start / 4096 + start := by
      rw [physFrameNumber, shr32_frameWidth]
      omega
    rw [hpage, L.owned hram start (le_refl _) hlt]
  next => exact hr.width

/-- **When `free` returns**: from the first frame of the range on the counters
are those of the first loop, which does not stop inside the range. -/
theorem Live.free_returns (E : Exact held s) (L : Live held s id addr bytes i start end_ c r)
    (h : free id addr bytes s = .ok s') :
    ∃ r' el, s'.regions[i]? = some r' ∧ r'.shape = r.shape ∧ el < r.nLogicalFrames ∧
      (end_ ≤ el ∨ el < start) ∧
      ∀ x, start ≤ x → r'.frames x = if x ≤ el then r.frames el + (el - x) + 1 else r.frames x := by
  have hr := L.regionOK E
  have hget := (getRegion_spec L.region).2.1
  obtain ⟨hsl, el, heq, hel⟩ := L.logFrames hr
  unfold free at h
  simp only [L.client, L.region, L.width hr, hr.width] at h
  obtain ⟨-, -, h⟩ := bind_eq_ok.mp h
  obtain ⟨r', hfree, h⟩ := map_eq_ok.mp h
  change freeFrames r (bytesToLogFrames (sub32 (freeStart addr frameWidth) r.start) frameWidth)
    (bytesToLogFrames (sub32 (freeEnd addr bytes frameWidth) r.start) frameWidth) = .ok r' at hfree
  rw [hsl, heq] at hfree
  obtain ⟨hsl0, hle, hshape⟩ := freeFrames_ok hfree
  have hlt : el < r.nLogicalFrames := by
    refine lt_of_le_of_ne hle fun heq => ?_
    -- the loop would have written past the array
    unfold freeFrames at hfree
    rw [if_neg (not_lt.mpr hle), if_neg hsl0] at hfree
    dsimp only at hfree
    rw [if_pos heq] at hfree
    cases hfree
  have hcount := E.count_lt hget hlt
  have hframes := freeFrames_frames hfree hcount
  refine ⟨r', el, ?_, hshape, hlt, ?_, hframes⟩
  · rw [← h]
    have hi : i < s.regions.length := (List.getElem?_eq_some_iff.mp hget).1
    exact List.getElem?_set_self hi
  · rcases hel with hel | hel
    · exact .inl hel
    · exact .inr (by omega)

/-- `free` gives `[start, end_)` of region `i` back as it was taken. -/
def FreeRestores (held : Nat → Nat → Prop) (s : State) (id addr bytes i start end_ : Nat)
    (r : Region) : Prop :=
  ∃ s', free id addr bytes s = .ok s' ∧ Restored held s id i start end_ r s'

/-- Eight frames of RAM with the third in use, and the fifth lent out. -/
def lent : State :=
  (created smallMap (emptyRamtab 8)).after (.allocateRange 0 0x1000 12 0x4000 true)

theorem create_lent : create smallMap (emptyRamtab 8) none = .ok (created smallMap (emptyRamtab 8)) :=
  create_created (by decide +kernel)

theorem exec_lent : exec (.allocateRange 0 0x1000 12 0x4000 true)
    (created smallMap (emptyRamtab 8)) = .ok (0x4000, lent) :=
  exec_after (by decide +kernel)

theorem lent_exact : Exact (busy lent.grants) lent := by
  have hrun : Run (fun _ c => c.Allocates) (created smallMap (emptyRamtab 8))
      [⟨.allocateRange 0 0x1000 12 0x4000 true, 0x4000⟩] lent := by
    refine .step .nil ?_ exec_lent
    show roundUp 0x1000 12 < wordSize
    decide
  exact (run_sound (create_sound create_lent).1 hrun).1.exact

theorem lent_live : ∃ c r, Live (busy lent.grants) lent 0 0x4000 0x1000 0 4 5 c r := by
  have hclient : lent.clients[0]?.map Client.owner = some ownerSystem := by decide +kernel
  have hregion : (getRegion 0x4000 lent.regions 0).map
      (fun p => (p.1, p.2.start, p.2.nLogicalFrames)) = some (0, 0, 8) := by decide +kernel
  obtain ⟨c, hc, howner⟩ := Option.map_eq_some_iff.mp hclient
  obtain ⟨⟨i, r⟩, hget, hr⟩ := Option.map_eq_some_iff.mp hregion
  simp only [Prod.mk.injEq] at hr
  obtain ⟨rfl, hstart, hn⟩ := hr
  refine ⟨c, r, ⟨hc, hget, ?_, by decide, by decide, by decide, ?_, fun j hj hj' => ?_,
    fun _ j hj hj' => ?_⟩⟩
  · rw [hstart]
  · rw [hn]
    decide
  · obtain rfl : j = 4 := by omega
    decide +kernel
  · obtain rfl : j = 4 := by omega
    rw [hstart, howner]
    decide +kernel

/-- **No live range is given back as it was taken**: `free` does not return, or
a counter of the region is wrong afterwards. -/
theorem free_never_restores (E : Exact held s) (L : Live held s id addr bytes i start end_ c r) :
    ¬ FreeRestores held s id addr bytes i start end_ r := by
  rintro ⟨s', h, R⟩
  obtain ⟨r', el, hget', hshape, hlt, hel, hframes⟩ := L.free_returns E h
  have hget := (getRegion_spec L.region).2.1
  have hn : r'.nLogicalFrames = r.nLogicalFrames := (Region.shape_eq hshape).2.1
  have hcounts := R.exact.counts hget'
  rw [hn] at hcounts
  have hstartEnd := L.lt
  have hinside := L.inside
  rcases hel with hel | hel
  · -- the frame after the range was and is not part of it
    have hbefore := E.counts hget el hlt
    have hafter : FreeRun (held i) r.nLogicalFrames el (r'.frames el) := by
      have hrun := hcounts el hlt
      refine ⟨hrun.bound, fun {j} hj hj' hheld => ?_, fun hstop => (hrun.stop hstop).1⟩
      exact hrun.free hj hj' ⟨hheld, by omega⟩
    have hone := hframes el (by omega)
    rw [if_pos (le_refl _)] at hone
    have := hafter.unique hbefore
    omega
  · -- the loop has not reached the first frame of the range, which was in use
    have hzero : r.frames start = 0 :=
      ((E.counts hget).eq_zero_iff (by omega)).mpr (L.taken start (le_refl _) hstartEnd)
    have hsame := hframes start (le_refl _)
    rw [if_neg (by omega), hzero] at hsame
    have hheld := (hcounts.eq_zero_iff (by omega)).mp hsame
    exact hheld.2 ⟨rfl, le_refl _, hstartEnd⟩

theorem free_never_restores_lent :
    ∃ c r, Live (busy lent.grants) lent 0 0x4000 0x1000 0 4 5 c r ∧
      ¬ FreeRestores (busy lent.grants) lent 0 0x4000 0x1000 0 4 5 r := by
  obtain ⟨c, r, L⟩ := lent_live
  exact ⟨c, r, L, free_never_restores lent_exact L⟩

/-- The fifth frame is freed right after it was allocated.  Three frames are free
from the sixth on, before and after; its counter now says four. -/
theorem free_counts_one_more :
    create smallMap (emptyRamtab 8) none = .ok (created smallMap (emptyRamtab 8)) ∧
      exec (.allocateRange 0 0x1000 12 0x4000 true) (created smallMap (emptyRamtab 8))
        = .ok (0x4000, lent) ∧
      Exact (busy lent.grants) lent ∧
      (∃ c r, Live (busy lent.grants) lent 0 0x4000 0x1000 0 4 5 c r ∧
        ¬ FreeRestores (busy lent.grants) lent 0 0x4000 0x1000 0 4 5 r) ∧
      exec (.free 0 0x4000 0x1000) lent = .ok (0, lent.after (.free 0 0x4000 0x1000)) ∧
      lent.regions[0]?.map (fun r => r.frames 5) = some 3 ∧
      (lent.after (.free 0 0x4000 0x1000)).regions[0]?.map (fun r => r.frames 5) = some 4 := by
  have hexec : exec (.free 0 0x4000 0x1000) lent = .ok (0, lent.after (.free 0 0x4000 0x1000)) :=
    exec_after (by decide +kernel)
  have hbefore : lent.regions[0]?.map (fun r => (r.frames 5, r.nLogicalFrames)) = some (3, 8) := by
    decide +kernel
  have hafter : (lent.after (.free 0 0x4000 0x1000)).regions[0]?.map (fun r => r.frames 5)
      = some 4 := by decide +kernel
  obtain ⟨r₀, hr₀, hf₀⟩ := Option.map_eq_some_iff.mp hbefore
  obtain ⟨r₁, hr₁, hf₁⟩ := Option.map_eq_some_iff.mp hafter
  simp only [Prod.mk.injEq] at hf₀
  refine ⟨create_lent, exec_lent, lent_exact, ?_, hexec, by rw [hr₀, Option.map_some, hf₀.1],
    hafter⟩
  obtain ⟨c, r, L⟩ := lent_live
  refine ⟨c, r, L, ?_⟩
  rintro ⟨s', hfree, R⟩
  obtain rfl : s' = lent.after (.free 0 0x4000 0x1000) := by
    rw [exec, hfree] at hexec
    exact congrArg Prod.snd (Except.ok.inj hexec)
  obtain ⟨r', hr', hshape⟩ := R.shape.get hr₁
  obtain rfl : r₀ = r' := Option.some.inj (hr₀.symm.trans hr')
  have hn : r₁.nLogicalFrames = 8 := (Region.shape_eq hshape).2.1.symm.trans hf₀.2
  have hrun := R.exact.counts hr₁ 5 (by omega)
  rw [hf₁, hn] at hrun
  have := hrun.bound
  omega

end Metta.FramesMod
