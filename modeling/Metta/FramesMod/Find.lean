/-
  Metta.FramesMod.Find — rounding, and what the searches answer.

  The rounding functions of memory.h when nothing wraps, and one lemma for
  each search: what `get_region`, `alloc_any` and `alloc_range` promise
  about the region and the frames they name.  Everything after this file
  uses these lemmas and not the loops.
-/
import Metta.FramesMod.Def

namespace Metta.FramesMod

open Metta.Machine

/-! ## §1. Rounding. -/

theorem shl32_one {w : Nat} (hw : w < 32) : shl32 1 w = 2 ^ w := by
  unfold shl32
  rw [Nat.mod_eq_of_lt hw, one_mul]
  exact Nat.mod_eq_of_lt (Nat.pow_lt_pow_right (by decide) hw)

theorem shr32_frameWidth (a : Nat) : shr32 a frameWidth = a / 4096 := rfl

theorem shr32_zero (a : Nat) : shr32 a 0 = a := Nat.div_one a

theorem shl32_frameWidth {a : Nat} (h : a * 4096 < wordSize) : shl32 a frameWidth = a * 4096 :=
  Nat.mod_eq_of_lt h

/-- The sum that the rounding masks, when it does not wrap. -/
theorem sub32_add32_one {a b : Nat} (hb : 0 < b) (h : a + b - 1 < wordSize) :
    sub32 (add32 a b) 1 = a + b - 1 := by
  by_cases hlt : a + b < wordSize
  · rw [add32_eq hlt, sub32_eq (by omega) hlt]
  · -- the sum is exactly `2 ^ 32`
    have hsum : a + b = wordSize := by omega
    rw [add32, hsum]
    decide

/-- **Rounding up** to a multiple of `2 ^ w`, when the result fits a word. -/
theorem alignToFrameWidth_eq {size w : Nat} (hw : w < 32)
    (h : size + 2 ^ w - 1 < wordSize) :
    alignToFrameWidth size w = (size + 2 ^ w - 1) / 2 ^ w * 2 ^ w := by
  unfold alignToFrameWidth
  rw [shl32_one hw, sub32_add32_one (Nat.two_pow_pos w) h]
  exact and_highMask h hw.le

theorem alignToFrameWidth_zero {n : Nat} (h : n < wordSize) : alignToFrameWidth n 0 = n := by
  have hsum : n + 2 ^ 0 - 1 < wordSize := by simpa using h
  rw [alignToFrameWidth_eq (by decide) hsum]
  simp

/-- A whole number of frames is its own rounding. -/
theorem bytesToLogFrames_mul {k : Nat} (h : k * 4096 < wordSize) :
    bytesToLogFrames (k * 4096) frameWidth = k := by
  have hsum : k * 4096 + 2 ^ frameWidth - 1 < wordSize := by
    simp only [frameWidth, wordSize] at *
    omega
  rw [bytesToLogFrames, alignToFrameWidth_eq (by decide) hsum, shr32_frameWidth]
  simp only [frameWidth]
  omega

theorem isAlignedToFrameWidth_iff {x w : Nat} (hw : w < 32) :
    isAlignedToFrameWidth x w = true ↔ x % 2 ^ w = 0 := by
  unfold isAlignedToFrameWidth
  rw [shl32_one hw, Nat.and_two_pow_sub_one_eq_mod, beq_iff_eq]

/-- What is aligned to a width is aligned to every smaller one. -/
theorem page_of_aligned {x w : Nat} (hw : frameWidth ≤ w) (h : x % 2 ^ w = 0) : x % 4096 = 0 := by
  have hdvd : 2 ^ frameWidth ∣ 2 ^ w := pow_dvd_pow 2 hw
  exact Nat.mod_eq_zero_of_dvd (hdvd.trans (Nat.dvd_of_mod_eq_zero h))

/-- The number of bytes a request is rounded up to. -/
def roundUp (bytes width : Nat) : Nat :=
  (bytes + 2 ^ max width frameWidth - 1) / 2 ^ max width frameWidth * 2 ^ max width frameWidth

/-- The rounding of a request does not wrap. -/
theorem roundUp_width {bytes width : Nat} (hpos : 0 < bytes) (h : roundUp bytes width < wordSize) :
    max width frameWidth < 32 ∧ bytes + 2 ^ max width frameWidth - 1 < wordSize := by
  set w := max width frameWidth with hw
  have hpow := Nat.two_pow_pos w
  -- the rounded size is at least one frame of the width
  have hone : 1 ≤ (bytes + 2 ^ w - 1) / 2 ^ w := by
    rw [Nat.le_div_iff_mul_le hpow]
    omega
  have hle : 2 ^ w ≤ roundUp bytes width := by
    calc 2 ^ w = 1 * 2 ^ w := (one_mul _).symm
      _ ≤ (bytes + 2 ^ w - 1) / 2 ^ w * 2 ^ w := Nat.mul_le_mul_right _ hone
  have hw32 : w < 32 := by
    by_contra hge
    have : 2 ^ 32 ≤ 2 ^ w := Nat.pow_le_pow_right (by decide) (by omega)
    simp only [wordSize] at h
    omega
  refine ⟨hw32, ?_⟩
  -- both the rounded size and `2 ^ 32` are multiples of `2 ^ w`
  obtain ⟨q, hq⟩ : 2 ^ w ∣ wordSize := pow_dvd_pow 2 hw32.le
  have hlt : (bytes + 2 ^ w - 1) / 2 ^ w < q := by
    have h' : (bytes + 2 ^ w - 1) / 2 ^ w * 2 ^ w < q * 2 ^ w := by
      rw [Nat.mul_comm q, ← hq]
      exact h
    exact Nat.lt_of_mul_lt_mul_right h'
  rw [Nat.div_lt_iff_lt_mul hpow, Nat.mul_comm, ← hq] at hlt
  exact hlt

/-- The physical frames of a request. -/
theorem nPhysFrames_eq {bytes width : Nat} (hpos : 0 < bytes)
    (h : roundUp bytes width < wordSize) :
    shr32 (alignToFrameWidth bytes (max width frameWidth)) frameWidth * 4096
      = roundUp bytes width ∧
    0 < shr32 (alignToFrameWidth bytes (max width frameWidth)) frameWidth := by
  obtain ⟨hw, hsum⟩ := roundUp_width hpos h
  rw [alignToFrameWidth_eq hw hsum, shr32_frameWidth]
  set w := max width frameWidth with hwdef
  have hdvd : 4096 ∣ 2 ^ w := pow_dvd_pow 2 (le_max_right width frameWidth)
  have hmul : 4096 ∣ (bytes + 2 ^ w - 1) / 2 ^ w * 2 ^ w := dvd_mul_of_dvd_right hdvd _
  have hone : 1 ≤ (bytes + 2 ^ w - 1) / 2 ^ w := by
    rw [Nat.le_div_iff_mul_le (Nat.two_pow_pos w)]
    omega
  refine ⟨Nat.div_mul_cancel hmul, Nat.div_pos ?_ (by decide)⟩
  calc 4096 ≤ 2 ^ w := Nat.le_of_dvd (Nat.two_pow_pos w) hdvd
    _ = 1 * 2 ^ w := (one_mul _).symm
    _ ≤ (bytes + 2 ^ w - 1) / 2 ^ w * 2 ^ w := Nat.mul_le_mul_right _ hone

/-! ## §2. Regions as `create` makes them. -/

/-- The members of a region that no operation changes. -/
structure RegionOK (r : Region) : Prop where
  width : r.frameWidth = frameWidth
  startLt : r.start < wordSize
  nLt : r.nLogicalFrames < 2 ^ 20
  ram : r.ramtab = true ↔ r.attrs = .regular

theorem mkRegion_ok (e : MmapEntry) : RegionOK (mkRegion e) where
  width := rfl
  startLt := Nat.mod_lt _ (by decide)
  nLt := by
    have : e.size % wordSize < wordSize := Nat.mod_lt _ (by decide)
    simp only [mkRegion, physFrameNumber, shr32_frameWidth]
    simp only [wordSize] at *
    omega
  ram := by
    simp only [mkRegion]
    cases e.type.isRam <;> simp

/-- The bytes of a region. -/
def Region.bytes (r : Region) : Nat := r.nLogicalFrames * 4096

theorem RegionOK.contains_iff {r : Region} (h : RegionOK r) {addr : Nat} :
    r.contains addr = true ↔
      r.start ≤ addr ∧ addr < add32 r.start r.bytes := by
  have hn := h.nLt
  have hshl : shl32 r.nLogicalFrames r.frameWidth = r.bytes := by
    rw [h.width, shl32_frameWidth (by simp only [wordSize]; omega)]
    rfl
  simp only [Region.contains, hshl, Bool.and_eq_true, decide_eq_true_eq]

/-- The end of a region in which `get_region` finds an address has not
wrapped. -/
theorem RegionOK.end_lt {r : Region} (h : RegionOK r) {addr : Nat}
    (hc : r.contains addr = true) : r.start + r.bytes < wordSize := by
  obtain ⟨hle, hlt⟩ := h.contains_iff.mp hc
  have hn := h.nLt
  have hs := h.startLt
  simp only [add32, Region.bytes, wordSize] at *
  omega

/-- An address that `get_region` finds lies in the region. -/
theorem RegionOK.of_contains {r : Region} (h : RegionOK r) {addr : Nat}
    (hc : r.contains addr = true) : r.start ≤ addr ∧ addr < r.start + r.bytes := by
  obtain ⟨hle, hlt⟩ := h.contains_iff.mp hc
  rw [add32_eq (h.end_lt hc)] at hlt
  exact ⟨hle, hlt⟩

/-- The frame that `alloc_range` finds for a page of the region. -/
theorem RegionOK.logFrame_eq {r : Region} (h : RegionOK r) {addr : Nat}
    (hc : r.contains addr = true) (hpage : addr % 4096 = 0) (hstart : r.start % 4096 = 0) :
    bytesToLogFrames (sub32 addr r.start) r.frameWidth = (addr - r.start) / 4096 ∧
      (addr - r.start) / 4096 < r.nLogicalFrames := by
  obtain ⟨hle, hlt⟩ := h.of_contains hc
  have hn := h.nLt
  have hlt' := (h.contains_iff.mp hc).2
  have haddr : addr < wordSize := lt_trans hlt' (add32_lt _ _)
  have hdiff : addr - r.start = (addr - r.start) / 4096 * 4096 := by omega
  simp only [Region.bytes] at hlt
  refine ⟨?_, by omega⟩
  rw [sub32_eq hle haddr, h.width, hdiff, bytesToLogFrames_mul (by omega)]
  omega

/-! ## §3. The searches. -/

theorem getRegion_spec {addr : Nat} {rs : List Region} {k i : Nat} {r : Region}
    (h : getRegion addr rs k = some (i, r)) :
    k ≤ i ∧ rs[i - k]? = some r ∧ r.contains addr = true := by
  induction rs generalizing k with
  | nil => cases h
  | cons r' rs ih =>
      rw [getRegion] at h
      split at h
      next hc =>
        cases h
        simp [hc]
      next =>
        obtain ⟨hle, hget, hc⟩ := ih h
        refine ⟨by omega, ?_, hc⟩
        rw [show i - k = (i - (k + 1)) + 1 by omega, List.getElem?_cons_succ]
        exact hget

/-- `get_region` takes the first region that holds the address. -/
theorem getRegion_first {addr : Nat} {rs : List Region} {k i : Nat} {r : Region}
    (h : getRegion addr rs k = some (i, r)) {j : Nat} {r' : Region} (hj : j < i - k)
    (hr' : rs[j]? = some r') : r'.contains addr = false := by
  induction rs generalizing k j with
  | nil => cases h
  | cons r₀ rs ih =>
      rw [getRegion] at h
      split at h
      next => cases h; omega
      next hc =>
        cases j with
        | zero =>
            cases hr'
            simpa using hc
        | succ j =>
            have hle := (getRegion_spec h).1
            exact ih h (by omega) hr'

theorem firstFit_spec {r : Region} {n align k first j : Nat}
    (h : firstFit r n align k first = some j) :
    first ≤ j ∧ j < first + k ∧ n ≤ r.frames j ∧
      isAlignedToFrameWidth (frameAddress r j) align = true := by
  induction k generalizing first with
  | zero => cases h
  | succ k ih =>
      rw [firstFit] at h
      split at h
      next hfit =>
        cases h
        simp only [Bool.and_eq_true, decide_eq_true_eq] at hfit
        exact ⟨le_refl _, by omega, hfit.1, hfit.2⟩
      next =>
        obtain ⟨h1, h2, h3, h4⟩ := ih h
        exact ⟨by omega, by omega, h3, h4⟩

/-- What `alloc_any` promises about the frames it names: they are in a RAM
region, free as far as the counters say, and aligned. -/
theorem allocAny_spec {n align : Nat} {rs : List Region} {k : Nat} {g : Found}
    (hok : ∀ r ∈ rs, RegionOK r) (h : allocAny n align rs k = .ok (some g)) :
    ∃ r, k ≤ g.region ∧ rs[g.region - k]? = some r ∧ r.attrs = .regular ∧ g.nFrames = n ∧
      firstFit r n align r.nLogicalFrames 0 = some g.first := by
  induction rs generalizing k with
  | nil => cases h
  | cons r rs ih =>
      have hwidth : shr32 n (sub32 r.frameWidth frameWidth) = n := by
        rw [(hok r List.mem_cons_self).width]
        exact shr32_zero n
      have hrec : allocAny n align rs (k + 1) = .ok (some g) →
          ∃ r', k ≤ g.region ∧ (r :: rs)[g.region - k]? = some r' ∧ r'.attrs = .regular ∧
            g.nFrames = n ∧ firstFit r' n align r'.nLogicalFrames 0 = some g.first := by
        intro hrest
        obtain ⟨r', hle, hget, hrest⟩ := ih (fun r hr => hok r (List.mem_cons_of_mem _ hr)) hrest
        refine ⟨r', by omega, ?_, hrest⟩
        rw [show g.region - k = (g.region - (k + 1)) + 1 by omega, List.getElem?_cons_succ]
        exact hget
      rw [allocAny] at h
      split at h
      next hattrs =>
        simp only [hwidth, ne_eq, not_true, if_false] at h
        split at h
        next first hfit =>
          cases h
          exact ⟨r, le_refl _, by simp, hattrs, rfl, hfit⟩
        next => exact hrec h
      next => exact hrec h

/-- What `alloc_range` promises: the frames at `start`, as many as asked for
or as many as are free there. -/
theorem allocRange_spec {n start : Nat} {rs : List Region} {g : Found}
    (hok : ∀ r ∈ rs, RegionOK r) (hn : n < wordSize) (h : allocRange n start rs = .ok g) :
    ∃ r, getRegion start rs 0 = some (g.region, r) ∧
      g.first = bytesToLogFrames (sub32 start r.start) r.frameWidth ∧
      g.first < r.nLogicalFrames ∧ g.nFrames = min n (r.frames g.first) := by
  unfold allocRange at h
  split at h
  next => cases h
  next i r hget =>
    have hmem : r ∈ rs := List.mem_of_getElem? (getRegion_spec hget).2.1
    have hzero : sub32 r.frameWidth frameWidth = 0 := by
      rw [(hok r hmem).width]
      decide
    simp only [hzero, alignToFrameWidth_zero hn, shr32_zero, Region.free] at h
    split at h
    next hlt =>
      cases h
      refine ⟨r, hget, rfl, hlt, ?_⟩
      dsimp only
      split <;> omega
    next => cases h

end Metta.FramesMod
