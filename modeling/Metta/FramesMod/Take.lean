/-
  Metta.FramesMod.Take — taking frames keeps the counters right.

  A frame is busy when a call of `mark_frames_used` covered it.  `Sound` says
  that every counter of every region is the length of the run of free frames
  that starts there; `takeFrames_sound` that taking frames, the only thing
  allocation does to a region, keeps it so.

    • `takeFrames_cases` — everything `takeFrames` can do,
    • `takeFrames_sound` — the counters stay right,
    • `Ramtab.entry_putLogFrames` — what it writes into the ramtab.
-/
import Metta.Machine.RunLength
import Metta.Machine.Outcome
import Metta.FramesMod.Find

namespace Metta.FramesMod

open Metta.Machine

/-! ## §1. The loops, pointwise. -/

/-- The predecessors that the loop reaches are those with no zero counter
between them and its start. -/
theorem subtractPredecessors_apply (d : Nat) (i : Nat) (f : Nat → Nat) (x : Nat) :
    subtractPredecessors d i f x
      = if x < i ∧ ∀ k, x ≤ k → k < i → f k ≠ 0 then sub32 (f x) d else f x := by
  induction i generalizing f with
  | zero => simp [subtractPredecessors]
  | succ i ih =>
      rw [subtractPredecessors]
      split
      next hz =>
        -- the loop stops at once, and so does the condition
        rw [if_neg]
        rintro ⟨hx, hall⟩
        exact hall i (by omega) (by omega) hz
      next hz =>
        rw [ih]
        by_cases hxi : x = i
        · subst hxi
          rw [if_neg (by omega), Function.update_self, if_pos]
          refine ⟨by omega, fun k hk hk' => ?_⟩
          rwa [show k = x by omega]
        · rw [Function.update_of_ne hxi]
          have hiff : (x < i ∧ ∀ k, x ≤ k → k < i →
                Function.update f i (sub32 (f i) d) k ≠ 0)
              ↔ (x < i + 1 ∧ ∀ k, x ≤ k → k < i + 1 → f k ≠ 0) := by
            constructor
            · rintro ⟨hx, hall⟩
              refine ⟨by omega, fun k hk hk' => ?_⟩
              rcases Nat.lt_succ_iff_lt_or_eq.mp hk' with hlt | rfl
              · have := hall k hk hlt
                rwa [Function.update_of_ne (by omega)] at this
              · exact hz
            · rintro ⟨hx, hall⟩
              refine ⟨by omega, fun k hk hk' => ?_⟩
              rw [Function.update_of_ne (by omega)]
              exact hall k hk (by omega)
          simp only [hiff]

theorem clearFrames_apply (k j : Nat) (f : Nat → Nat) (x : Nat) :
    clearFrames k j f x = if j ≤ x ∧ x < j + k then 0 else f x := by
  induction k generalizing j f with
  | zero =>
      rw [if_neg (by omega)]
      rfl
  | succ k ih =>
      rw [clearFrames, ih]
      by_cases hx : x = j
      · rw [if_neg (by omega), hx, Function.update_self, if_pos (by omega)]
      · rw [Function.update_of_ne hx]
        by_cases hin : j + 1 ≤ x ∧ x < j + 1 + k
        · rw [if_pos hin, if_pos (by omega)]
        · rw [if_neg hin, if_neg (by omega)]

/-- The counters of a region after `m` frames from `first` on were taken. -/
def takenFrames (first m : Nat) (f : Nat → Nat) : Nat → Nat :=
  clearFrames m first (subtractPredecessors (f first) first f)

/-- **Taking frames keeps run-length counters right.**  Nothing may be taken
from the middle of a run: then the predecessors would lose frames that are
still free. -/
theorem counts_takenFrames {busy : Nat → Prop} {n first m : Nat} {f : Nat → Nat}
    (h : Counts busy n f) (hn : n < wordSize) (hfirst : first < n)
    (hm0 : m = 0 → f first = 0 ∨ first = 0) :
    Counts (fun i => busy i ∨ (first ≤ i ∧ i < first + m)) n (takenFrames first m f) := by
  by_cases hzero : m = 0 ∧ first = 0
  · -- no frame, taken from the first one: no counter changes
    obtain ⟨rfl, rfl⟩ := hzero
    refine Counts.congr (f := f) h fun i => ?_
    simp
  · have hbound : ∀ x, x < n → f x < wordSize := by
      intro x hx
      have := (h x hx).bound
      omega
    refine h.take hfirst (fun hm => ?_) ?_ ?_ ?_
    · rcases hm0 hm with hf | hf
      · exact hf
      · exact absurd ⟨hm, hf⟩ hzero
    · intro i hi hi'
      rw [takenFrames, clearFrames_apply, if_pos ⟨hi, hi'⟩]
    · -- a run through `first`: every counter in between is positive
      intro i hi hthrough
      have hreach := h.reaches (by omega) hi.le hthrough
      have hall : ∀ k, i ≤ k → k < first → f k ≠ 0 := by
        intro k hk hk'
        have := h.reaches (by omega) hk (by omega : k < i + f i)
        omega
      rw [takenFrames, clearFrames_apply, if_neg (by omega), subtractPredecessors_apply,
        if_pos ⟨hi, hall⟩, sub32_eq (by omega) (hbound i (by omega))]
      omega
    · intro i hi hin hthrough
      rw [takenFrames, clearFrames_apply, if_neg hin, subtractPredecessors_apply]
      split
      next hall =>
        -- the run of `i` ends right before `first`, which is busy
        have hge : first ≤ i + f i := by
          by_contra hlt
          have hstop := (h i hi).stop (by omega)
          exact hall.2 (i + f i) (by omega) (by omega)
            ((h.eq_zero_iff (by omega)).mpr hstop)
        have hend : i + f i = first := by omega
        have hstop := (h i hi).stop (by omega)
        rw [hend] at hstop
        rw [(h.eq_zero_iff hfirst).mpr hstop, sub32_eq (by omega) (hbound i hi), Nat.sub_zero]
      next => rfl

/-! ## §2. The ramtab. -/

theorem Ramtab.size_put (t : Ramtab) (p owner width : Nat) (st : RamState) :
    (t.put p owner width st).size = t.size := by
  unfold Ramtab.put
  split <;> rfl

theorem Ramtab.entry_put (t : Ramtab) (p owner width : Nat) (st : RamState) (x : Nat)
    (hw : width < 2 ^ 16) :
    (t.put p owner width st).entry x
      = if x = p ∧ x < t.size then ⟨owner, width, st⟩ else t.entry x := by
  unfold Ramtab.put
  split
  next hp =>
    simp only [Function.update_apply, Nat.mod_eq_of_lt hw]
    by_cases hx : x = p
    · rw [if_pos hx, if_pos ⟨hx, hx ▸ hp⟩]
    · rw [if_neg hx, if_neg fun hh => hx hh.1]
  next hp =>
    rw [if_neg]
    rintro ⟨rfl, hx⟩
    exact hp hx

/-- One logical frame of standard width is one ramtab entry. -/
theorem putLogFrames_succ {owner ridx k j : Nat} {t : Ramtab} (h : ridx + j < wordSize) :
    putLogFrames owner frameWidth ridx 0 (k + 1) j t
      = putLogFrames owner frameWidth ridx 0 k (j + 1)
          (t.put (ridx + j) owner frameWidth .unused) := by
  have hshl : shl32 j 0 = j := by
    simp only [shl32, Nat.zero_mod, pow_zero, mul_one]
    exact Nat.mod_eq_of_lt (by omega)
  rw [putLogFrames, hshl, add32_eq h]
  rfl

theorem Ramtab.size_putLogFrames {owner ridx k j : Nat} {t : Ramtab}
    (h : ridx + j + k ≤ wordSize) :
    (putLogFrames owner frameWidth ridx 0 k j t).size = t.size := by
  induction k generalizing j t with
  | zero => rfl
  | succ k ih => rw [putLogFrames_succ (by omega), ih (by omega), Ramtab.size_put]

/-- **What `mark_frames_used` writes into the ramtab.** -/
theorem Ramtab.entry_putLogFrames {owner ridx k j : Nat} {t : Ramtab}
    (h : ridx + j + k ≤ wordSize) (x : Nat) :
    (putLogFrames owner frameWidth ridx 0 k j t).entry x
      = if ridx + j ≤ x ∧ x < ridx + j + k ∧ x < t.size then ⟨owner, frameWidth, .unused⟩
        else t.entry x := by
  induction k generalizing j t with
  | zero =>
      rw [if_neg (by omega)]
      rfl
  | succ k ih =>
      rw [putLogFrames_succ (by omega), ih (by omega), Ramtab.size_put,
        Ramtab.entry_put _ _ _ _ _ _ (by decide)]
      by_cases hrest : ridx + (j + 1) ≤ x ∧ x < ridx + (j + 1) + k ∧ x < t.size
      · rw [if_pos hrest, if_pos (by omega)]
      · rw [if_neg hrest]
        by_cases hx : x = ridx + j ∧ x < t.size
        · rw [if_pos hx, if_pos (by omega)]
        · rw [if_neg hx, if_neg (by omega)]

/-! ## §3. Everything `takeFrames` can do. -/

/-- The state after the frames `g` were taken from the region `r`. -/
def State.taken (s : State) (owner : Nat) (g : Found) (r : Region) : State :=
  { s with
    regions := s.regions.set g.region
      { r with frames := takenFrames g.first g.nFrames r.frames }
    ramtab :=
      if r.ramtab then
        putLogFrames owner frameWidth (r.start / 4096) 0 g.nFrames g.first s.ramtab
      else s.ramtab
    grants := ⟨g.region, g.first, g.nFrames, owner⟩ :: s.grants }

/-- **Everything `takeFrames` can do**: it takes the frames, or none of them
when their end wraps around. -/
theorem takeFrames_cases {owner : Nat} {g : Found} {s s' : State}
    (hok : ∀ r ∈ s.regions, RegionOK r) (h : takeFrames owner g s = .ok s') :
    ∃ r k, s.regions[g.region]? = some r ∧ k ≤ g.nFrames ∧
      g.first + k ≤ r.nLogicalFrames ∧ s' = s.taken owner ⟨g.region, g.first, k⟩ r := by
  unfold takeFrames at h
  split at h
  next => cases h
  next r hr =>
    have hr' := hok r (List.mem_of_getElem? hr)
    obtain ⟨r₁, hpred, h⟩ := bind_eq_ok.mp h
    obtain ⟨startFree, hfree, rfl⟩ := map_eq_ok.mp hpred
    simp only [Region.free] at hfree
    split at hfree
    next hfirst =>
      cases hfree
      simp only [markFramesUsed] at h
      split at h
      next => cases h
      next hle =>
        have hk : add32 g.first g.nFrames - g.first ≤ g.nFrames := by
          have : add32 g.first g.nFrames ≤ g.first + g.nFrames := Nat.mod_le _ _
          omega
        refine ⟨r, _, hr, hk, by omega, ?_⟩
        have hzero : sub32 frameWidth frameWidth = 0 := by decide
        simp only [hr'.width, hzero, shr32_frameWidth] at h
        rw [← Except.ok.inj h]
        simp only [State.taken, takenFrames, hr'.width]
    next => cases hfree

/-! ## §4. The state invariant. -/

/-- Frame `j` of region `i` was given out by `mark_frames_used`. -/
def busy (grants : List Grant) (i j : Nat) : Prop :=
  ∃ g ∈ grants, g.region = i ∧ g.first ≤ j ∧ j < g.first + g.nFrames

instance (grants : List Grant) (i j : Nat) : Decidable (busy grants i j) :=
  inferInstanceAs (Decidable (∃ g ∈ grants, _))

theorem busy_cons {g : Grant} {grants : List Grant} {i j : Nat} :
    busy (g :: grants) i j ↔
      busy grants i j ∨ (g.region = i ∧ g.first ≤ j ∧ j < g.first + g.nFrames) := by
  simp only [busy, List.mem_cons, exists_eq_or_imp]
  exact or_comm

/-- **The allocator's invariant**: the counters of every region are the
lengths of its runs of free frames. -/
structure Sound (s : State) : Prop where
  region : ∀ r ∈ s.regions, RegionOK r
  counts : ∀ {i r}, s.regions[i]? = some r →
    Counts (busy s.grants i) r.nLogicalFrames r.frames
  inside : ∀ {g : Grant} {r : Region}, g ∈ s.grants → s.regions[g.region]? = some r →
    g.first + g.nFrames ≤ r.nLogicalFrames

/-- A region without its counters. -/
def Region.shape (r : Region) : Region := { r with frames := fun _ => 0 }

theorem Region.shape_eq {r r' : Region} (h : r.shape = r'.shape) :
    r.start = r'.start ∧ r.nLogicalFrames = r'.nLogicalFrames ∧
      r.attrs = r'.attrs ∧ r.ramtab = r'.ramtab := by
  simp only [Region.shape, Region.mk.injEq] at h
  exact ⟨h.1, h.2.1, h.2.2.2.1, h.2.2.2.2.1⟩

/-- The shapes of the regions never change. -/
def SameShape (s s' : State) : Prop :=
  s'.regions.map Region.shape = s.regions.map Region.shape

theorem SameShape.refl (s : State) : SameShape s s := rfl

theorem SameShape.trans {s s' s'' : State} (h : SameShape s s') (h' : SameShape s' s'') :
    SameShape s s'' := Eq.trans h' h

theorem SameShape.get {s s' : State} (h : SameShape s s') {i : Nat} {r' : Region}
    (hr' : s'.regions[i]? = some r') : ∃ r, s.regions[i]? = some r ∧ r.shape = r'.shape := by
  have hmap : (s'.regions.map Region.shape)[i]? = some r'.shape := by
    rw [List.getElem?_map, hr', Option.map_some]
  rw [h, List.getElem?_map] at hmap
  cases hr : s.regions[i]? with
  | none => rw [hr] at hmap; cases hmap
  | some r => rw [hr] at hmap; exact ⟨r, rfl, Option.some.inj hmap⟩

theorem SameShape.symm {s s' : State} (h : SameShape s s') : SameShape s' s := Eq.symm h

theorem taken_sameShape {s : State} (owner : Nat) {g : Found} {r : Region}
    (hr : s.regions[g.region]? = some r) : SameShape s (s.taken owner g r) := by
  unfold SameShape State.taken
  rw [List.map_set]
  refine List.ext_getElem? fun i => ?_
  rw [List.getElem?_set]
  split
  next hi =>
    subst hi
    have hlt : g.region < s.regions.length := (List.getElem?_eq_some_iff.mp hr).1
    rw [if_pos (by rwa [List.length_map]), List.getElem?_map, hr]
    rfl
  next => rfl

/-- The regions after `taken`. -/
theorem taken_getElem? {s : State} {owner : Nat} {g : Found} {r : Region}
    (hr : s.regions[g.region]? = some r) (i : Nat) :
    (s.taken owner g r).regions[i]?
      = if i = g.region then some { r with frames := takenFrames g.first g.nFrames r.frames }
        else s.regions[i]? := by
  have hlt : g.region < s.regions.length := (List.getElem?_eq_some_iff.mp hr).1
  simp only [State.taken]
  rw [List.getElem?_set]
  by_cases hi : i = g.region
  · rw [if_pos hi.symm, if_pos hlt, if_pos hi]
  · rw [if_neg (fun hh => hi hh.symm), if_neg hi]

/-- **Taking frames keeps the allocator sound.** -/
theorem taken_sound {s : State} {owner : Nat} {g : Found} {r : Region} (S : Sound s)
    (hr : s.regions[g.region]? = some r) (hfirst : g.first < r.nLogicalFrames)
    (hlast : g.first + g.nFrames ≤ r.nLogicalFrames)
    (hm0 : g.nFrames = 0 → r.frames g.first = 0 ∨ g.first = 0) :
    Sound (s.taken owner g r) := by
  have hr' := S.region r (List.mem_of_getElem? hr)
  constructor
  case region =>
    intro x hx
    rcases List.mem_or_eq_of_mem_set hx with hx | rfl
    · exact S.region x hx
    · exact ⟨hr'.width, hr'.startLt, hr'.nLt, hr'.ram⟩
  case counts =>
    intro i x hx
    rw [taken_getElem? hr] at hx
    have hn : r.nLogicalFrames < wordSize := lt_trans hr'.nLt (by decide)
    split at hx
    next hi =>
      rw [← Option.some.inj hx]
      refine (counts_takenFrames (S.counts hr) hn hfirst hm0).congr fun j => ?_
      simp only [State.taken, busy_cons, hi, true_and]
    next hi =>
      refine (S.counts hx).congr fun j => ?_
      simp only [State.taken, busy_cons, Ne.symm hi, false_and, or_false]
  case inside =>
    intro q x hq hx
    obtain ⟨x₀, hx₀, heq⟩ := (taken_sameShape owner hr).get hx
    rw [← (Region.shape_eq heq).2.1]
    rcases List.mem_cons.mp hq with rfl | hq
    · rw [Option.some.inj (hx₀.symm.trans hr)]
      exact hlast
    · exact S.inside hq hx₀

end Metta.FramesMod
